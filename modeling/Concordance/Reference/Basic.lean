import Concordance.Definition.Basic
import Concordance.Selector

/-!
What the readers of references share: a list of candidate places becomes the uses of a symbol.

A place in a comment is no use, nor is one on the line that defines the symbol; of several places
on one line the first that is a use counts.
-/

namespace Concordance

open Text

/-- A place that may use a symbol, and how it does, asked for only when it matters. -/
structure Candidate where
  start : Nat
  stop : Nat
  use? : Unit → Option UsageKind

namespace Candidate

/-- A place that uses a symbol in the given way. -/
def sure (start stop : Nat) (kind : UsageKind) : Candidate :=
  ⟨start, stop, fun _ => some kind⟩

/-- The use that a candidate on the line is, if it stands in code and not on the line that defines
the symbol. -/
def usageOn? (s : SourceText) (path : String) (symbol : Symbol) (line : Nat) (c : Candidate) :
    Option Usage :=
  if s.inComment c.start || symbol.isDefinitionSite path line then none
  else
    (c.use? ()).map fun kind =>
      { filePath := path
        position := s.positionAt c.start
        range := s.range c.start c.stop
        context := String.ofList (s.contextAt c.start)
        kind := kind }

end Candidate

/-- The uses among the candidates, the first one for each line that is not in `seen`. -/
def firstPerLine (s : SourceText) (path : String) (symbol : Symbol) :
    List Nat → List Candidate → List Usage
  | _, [] => []
  | seen, c :: rest =>
    let line := s.lineOf c.start
    if seen.contains line then firstPerLine s path symbol seen rest
    else
      match c.usageOn? s path symbol line with
      | some u => u :: firstPerLine s path symbol (line :: seen) rest
      | none => firstPerLine s path symbol seen rest

/-- The uses of a symbol among the candidates: one for a line, in reading order. -/
def collectUsages (s : SourceText) (path : String) (symbol : Symbol)
    (candidates : List Candidate) : List Usage :=
  (firstPerLine s path symbol [] candidates).mergeSort fun a b => a.position.upTo b.position

/-- The text before a name without the qualifiers that lead up to it. -/
def stripQualifier (before : List Char) : List Char :=
  trimEnd (dropTail (fun c => isAlphanumeric c || c == '_' || c == '\\') before)

/-- The text of the line of a byte, without leading white space. -/
def lineAt (s : SourceText) (offset : Nat) : List Char :=
  trimStart (s.lineText (s.lineOf offset))

/-- A parenthesis opens after the byte on its line. -/
def isCalled (s : SourceText) (stop : Nat) : Bool :=
  (trimStart (s.afterOnLine stop)).head? == some '('

/-- The markup attributes that carry class names or an id. -/
def markupAttribute : Pattern :=
  open Pattern in
  all [.wordEdge, .group 1 (keyword ["class", "className", "id"]), blanks, literal "=", blanks,
    .alt
      (all [literal "\"", .group 2 (.run (· != '"')), literal "\""])
      (all [literal "'", .group 3 (.run (· != '\'')), literal "'"])]

/-- The byte offset of a value among white space, when it is the trimmed text. -/
def trimmedOffset? (value text : List Char) : Option Nat :=
  if trim text == value then some (byteLength text - byteLength (trimStart text)) else none

/-- The markup attributes that name the key. They are looked for everywhere, string literals
included. -/
def markupCandidates (s : SourceText) (key : SelectorKey) : List Candidate :=
  (markupAttribute.searchAll 0 s.chars).filterMap fun m =>
    match m.group? 1, m.group? 2 <|> m.group? 3 with
    | some named, some g =>
      let isId := s.slice named.start named.stop == "id".toList
      let value := s.slice g.start g.stop
      let offset? :=
        match key, isId with
        | .id name, true => trimmedOffset? name value
        | .className name, false => classOffset? name value
        | _, _ => none
      offset?.map fun offset =>
        let start := g.start + offset
        .sure start (start + byteLength key.name) .reference
    | _, _ => none

/-- The bytes where a name stands between two equal quotes. -/
def quotedOffsets (s : SourceText) (quotes : List Char) (name : List Char) : List Nat :=
  (occurrences name s.chars).filterMap fun o =>
    match o.before with
    | some q => if quotes.contains q && o.after.head? == some q then some o.offset else none
    | none => none

/-- What stands on the line before the quote that stands before the byte. -/
def beforeQuote (s : SourceText) (offset : Nat) : List Char :=
  (s.beforeOnLine offset).dropLast

end Concordance
