import Concordance.Annotate
import Concordance.Block.Parts
import Concordance.Block.Place
import Concordance.Block.Style
import Concordance.Block.Update
import Concordance.Cli.Arguments
import Concordance.Cli.Run
import Concordance.Cli.Usage
import Concordance.Config
import Concordance.Definition.Basic
import Concordance.Definition.JavaScript
import Concordance.Definition.Php
import Concordance.Definition.Stylesheet
import Concordance.Diagnostic
import Concordance.Diagram
import Concordance.Digest
import Concordance.Entry.Basic
import Concordance.Entry.OfUsages
import Concordance.Error
import Concordance.FileFilter.Basic
import Concordance.FileFilter.Collect
import Concordance.FileFilter.Ignore
import Concordance.FileTree.Access
import Concordance.FileTree.Basic
import Concordance.FileTree.Resolve
import Concordance.Glob.Basic
import Concordance.Glob.Form
import Concordance.Glob.Match
import Concordance.Graph
import Concordance.Json.Basic
import Concordance.Json.Binary
import Concordance.Json.Fault
import Concordance.Json.Reader
import Concordance.Json.Scan
import Concordance.Keyed
import Concordance.Language
import Concordance.Main
import Concordance.Notice
import Concordance.Path
import Concordance.Pattern
import Concordance.Position
import Concordance.Project.Annotate
import Concordance.Project.Read
import Concordance.Project.Store
import Concordance.Proofs.Annotate.Code
import Concordance.Proofs.Annotate.LineEnds
import Concordance.Proofs.Annotate.Outline
import Concordance.Proofs.Annotate.Owner
import Concordance.Proofs.Annotate.Run
import Concordance.Proofs.Annotate.Settled
import Concordance.Proofs.Block.Current
import Concordance.Proofs.Block.Defines
import Concordance.Proofs.Block.Edit
import Concordance.Proofs.Block.Entries
import Concordance.Proofs.Block.Gathered
import Concordance.Proofs.Block.Idempotence
import Concordance.Proofs.Block.Inserted
import Concordance.Proofs.Block.Nearest
import Concordance.Proofs.Block.Parts
import Concordance.Proofs.Block.Place
import Concordance.Proofs.Block.RoundTrip
import Concordance.Proofs.Block.Splice
import Concordance.Proofs.Block.Written
import Concordance.Proofs.Definition.Anchor
import Concordance.Proofs.Definition.BetweenCharacters
import Concordance.Proofs.Definition.Bodies
import Concordance.Proofs.Definition.Classes
import Concordance.Proofs.Definition.Commented
import Concordance.Proofs.Definition.Containment
import Concordance.Proofs.Definition.HeadLines
import Concordance.Proofs.Definition.Heads
import Concordance.Proofs.Definition.Id
import Concordance.Proofs.Definition.Kept
import Concordance.Proofs.Definition.Lead
import Concordance.Proofs.Definition.Line
import Concordance.Proofs.Definition.Moved
import Concordance.Proofs.Definition.Names
import Concordance.Proofs.Definition.Nesting
import Concordance.Proofs.Definition.Origin
import Concordance.Proofs.Definition.RuleHeads
import Concordance.Proofs.Definition.Rules
import Concordance.Proofs.Definition.SelectorScan
import Concordance.Proofs.Definition.Selectors
import Concordance.Proofs.Definition.Site
import Concordance.Proofs.Definition.Spelling
import Concordance.Proofs.Definition.Standing
import Concordance.Proofs.Diagram
import Concordance.Proofs.Diagram.Determined
import Concordance.Proofs.Digest
import Concordance.Proofs.Entry.Form
import Concordance.Proofs.Entry.Merge
import Concordance.Proofs.Entry.Path
import Concordance.Proofs.Entry.Reread
import Concordance.Proofs.Entry.RoundTrip
import Concordance.Proofs.Entry.Selection
import Concordance.Proofs.FileFilter.Collect
import Concordance.Proofs.FileTree.Leaves
import Concordance.Proofs.FileTree.Write
import Concordance.Proofs.Graph
import Concordance.Proofs.Json.Pieces
import Concordance.Proofs.Json.Readers
import Concordance.Proofs.Keyed
import Concordance.Proofs.Path
import Concordance.Proofs.Path.Relative
import Concordance.Proofs.Path.Walk
import Concordance.Proofs.Pattern.Accepts
import Concordance.Proofs.Pattern.Division
import Concordance.Proofs.Pattern.Match
import Concordance.Proofs.Project.Annotate
import Concordance.Proofs.Reference.Candidates
import Concordance.Proofs.Reference.CommentText
import Concordance.Proofs.Reference.PerLine
import Concordance.Proofs.Reference.Uses
import Concordance.Proofs.Reference.Verbatim
import Concordance.Proofs.Reference.WholeNames
import Concordance.Proofs.Scanner.Freshness
import Concordance.Proofs.Scanner.History
import Concordance.Proofs.Scanner.Innermost
import Concordance.Proofs.Scanner.Table
import Concordance.Proofs.Scanner.Uses
import Concordance.Proofs.Selector.Key
import Concordance.Proofs.Selector.Parts
import Concordance.Proofs.Source.BareCode
import Concordance.Proofs.Source.Braces
import Concordance.Proofs.Source.ByteCode
import Concordance.Proofs.Source.ByteComments
import Concordance.Proofs.Source.ByteDepth
import Concordance.Proofs.Source.Change
import Concordance.Proofs.Source.CodeReading
import Concordance.Proofs.Source.CodeRun
import Concordance.Proofs.Source.Depth
import Concordance.Proofs.Source.Leaps
import Concordance.Proofs.Source.LineStarts
import Concordance.Proofs.Source.SameCode
import Concordance.Proofs.Source.Spans
import Concordance.Proofs.Stored
import Concordance.Proofs.Text.Bytes
import Concordance.Proofs.Text.Cut
import Concordance.Proofs.Text.Lines
import Concordance.Proofs.Text.Occurrence
import Concordance.Proofs.Text.Order
import Concordance.Proofs.Text.Shared
import Concordance.Proofs.Text.Trim
import Concordance.Reading
import Concordance.Reference.Basic
import Concordance.Reference.JavaScript
import Concordance.Reference.Php
import Concordance.Reference.Stylesheet
import Concordance.Scanner
import Concordance.Selector
import Concordance.Source.Basic
import Concordance.Source.Code
import Concordance.Source.Comment
import Concordance.Source.DocComment
import Concordance.Source.Spot
import Concordance.Stored
import Concordance.Symbol
import Concordance.Text.Alphanumeric
import Concordance.Text.Basic
import Concordance.Text.Blank
import Concordance.Text.DecimalDigit
import Concordance.Text.Lines
import Concordance.Text.Lowercase
import Concordance.Text.Number
import Concordance.Text.Occurrence
import Concordance.Text.Printable
import Concordance.Text.Quoted
import Concordance.Text.WordChar
