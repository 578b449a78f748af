import Concordance.Keyed
import Concordance.Symbol
import Concordance.Notice
import Concordance.Pattern
import Concordance.Source.Code
import Concordance.Source.DocComment

/-!
What the readers of definitions share: names found by a pattern, bodies between braces, and
classes with their members.
-/

namespace Concordance

open Text

/-- A name in a source text, where it stands, and where the match that found it ends. -/
structure FoundName where
  text : List Char
  start : Nat
  stop : Nat
  matchStop : Nat
deriving Repr, DecidableEq

/-- The definitions read from a file, and what was noted on the way. -/
structure Extraction where
  symbols : List Symbol
  notices : List Notice
deriving Repr, DecidableEq

/-- What follows the head of a declaration. -/
inductive Body where
  /-- No block opens. -/
  | missing
  /-- A block opens at the brace and does not close. -/
  | unclosed (start : Nat)
  /-- A block between two braces. -/
  | closed (start stop : Nat)
deriving Repr, DecidableEq

namespace Body

/-- The end of the declaration: after the block if it closes, else `default`. -/
def declarationEnd (default : Nat) : Body → Nat
  | .closed _ stop => stop + 1
  | _ => default

end Body

namespace SourceText

/-- The names that the first group of the pattern finds in the text from `start` to `stop`. -/
def namesIn (s : SourceText) (p : Pattern) (start stop : Nat) : List FoundName :=
  (p.searchAll start (s.slice start stop)).filterMap fun m =>
    (m.group? 1).map fun g => ⟨s.slice g.start g.stop, g.start, g.stop, m.span.stop⟩

/-- The names that the first group of the pattern finds in the whole text. -/
def names (s : SourceText) (p : Pattern) : List FoundName :=
  s.namesIn p 0 s.length

/-- The block that opens after `start`, where `parens` parentheses are open. -/
def bodyFrom (s : SourceText) (start parens : Nat) : Body :=
  match s.findBlockOpen? start parens with
  | none => .missing
  | some o =>
    match s.matchingBrace? o with
    | none => .unclosed o
    | some c => .closed o c

/-- A definition whose name starts at `start` and whose extent ends at `stop`, with the comment
above it. -/
def symbolAt (s : SourceText) (path : String) (kind : SymbolKind) (name : List Char)
    (start stop : Nat) : Symbol :=
  let position := s.positionAt start
  { Symbol.define (String.ofList name) kind path position (s.range start stop) with
    documentation := (s.docComment? position.line).map String.ofList }

end SourceText

/-- What is read from the classes of a file: the definitions, the notes, and the extents of the
class bodies. -/
structure ClassReading where
  symbols : List Symbol
  notices : List Notice
  bodies : List Span
deriving Repr, DecidableEq

/-- The classes with the names, each followed by its members. A class in a comment is none and,
unless `nested`, neither is one within a body read before. A body that does not close takes the
rest of the file, and its members are not read. -/
def readClasses (s : SourceText) (path : String) (nested : Bool)
    (members : FoundName → Nat → Nat → List Symbol) :
    List Span → List FoundName → ClassReading
  | bodies, [] => ⟨[], [], bodies⟩
  | bodies, n :: rest =>
    if s.inComment n.start || (!nested && bodies.any (·.strictlyCovers n.start)) then
      readClasses s path nested members bodies rest
    else
      let body := s.bodyFrom n.stop 0
      let symbol := s.symbolAt path .type n.text n.start (body.declarationEnd n.stop)
      match body with
      | .missing =>
        let r := readClasses s path nested members bodies rest
        { r with symbols := symbol :: r.symbols }
      | .unclosed start =>
        let r := readClasses s path nested members (bodies ++ [⟨start, s.length⟩]) rest
        let line := (s.positionAt n.start).line + 1
        { r with
          symbols := symbol :: r.symbols
          notices := .membersSkipped path line (String.ofList n.text) :: r.notices }
      | .closed start stop =>
        let r := readClasses s path nested members (bodies ++ [⟨start, stop⟩]) rest
        { r with symbols := symbol :: (members n start stop ++ r.symbols) }

/-- A function found: its name and where its extent ends. -/
structure FoundFunction where
  name : FoundName
  stop : Nat
deriving Repr, DecidableEq

/-- The functions that start within no other. -/
def outermostFunctions (found : List FoundFunction) : List FoundFunction :=
  found.filter fun f => !found.any fun g => g.name.start < f.name.start && f.name.start < g.stop

/-- The definitions in reading order. -/
def inReadingOrder (symbols : List Symbol) : List Symbol :=
  symbols.mergeSort fun a b => a.position.upTo b.position

/-- Events with the names, each name once and none from a comment. -/
def readEvents (s : SourceText) (path : String) (names : List FoundName) : List Symbol :=
  (firstPerKey FoundName.text [] (names.filter fun n => !s.inComment n.start)).map fun n =>
    Symbol.define (String.ofList n.text) .event path (s.positionAt n.start)
      (s.range n.start n.stop)

end Concordance
