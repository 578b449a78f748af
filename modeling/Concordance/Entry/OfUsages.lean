import Concordance.Entry.Basic
import Concordance.Path
import Concordance.Symbol

/-!
The entries for a symbol, made from the places that use it.
-/

namespace Concordance

open Text

/-- How entries are made from uses. -/
structure EntryOptions where
  /-- One entry for a file instead of one for a use. -/
  groupByFile : Bool := true
  /-- Uses in the main file of a module are left out. -/
  skipEntryPoints : Bool := true
  /-- The directory that paths are seen from. -/
  root : Option String := none
deriving Repr, DecidableEq

/-- A line that uses a symbol; lines are counted from one. -/
structure UsedLine where
  path : String
  line : Nat
  kind : UsageKind
deriving Repr, DecidableEq

/-- The order by path, then by line. -/
def UsedLine.upTo (a b : UsedLine) : Bool :=
  decide (a.path < b.path) || (a.path == b.path && a.line ≤ b.line)

/-- The entry for lines of one file. -/
def UsedLine.entry (u : UsedLine) (lines : List Nat) : Entry :=
  ⟨u.path.toList, lines, some u.kind.name.toList⟩

/-- The lines that use a symbol, in order. Its own line is none of them. -/
def Symbol.usedLines (s : Symbol) (options : EntryOptions) : List UsedLine :=
  let sites := s.usages.filter fun u => !s.isDefinitionSite u.filePath u.position.line
  let lines := sites.map fun u =>
    UsedLine.mk (displayPath u.filePath options.root) (u.position.line + 1) u.kind
  (lines.filter fun u => !(options.skipEntryPoints && isEntryPoint u.path)).mergeSort UsedLine.upTo

/-- The entries for a symbol. With grouping each file has one, of the kind of its first line; else
each use has one. -/
def Symbol.entries (s : Symbol) (options : EntryOptions) : List (List Char) :=
  let used := s.usedLines options
  if options.groupByFile then
    (firstPerKey UsedLine.path [] used).map fun first =>
      let lines := (used.filter (·.path == first.path)).map UsedLine.line
      (first.entry (dropRepeats lines)).render
  else dropRepeats (used.map fun u => (u.entry [u.line]).render)

/-- A symbol of the file has an entry. -/
def hasEntries (file : String) (symbols : List Symbol) (options : EntryOptions) : Bool :=
  symbols.any fun s => s.filePath == file && !(s.entries options).isEmpty

end Concordance
