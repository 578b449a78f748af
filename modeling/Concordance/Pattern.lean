import Concordance.Text.Blank
import Concordance.Text.WordChar
import Concordance.Source.Comment

/-!
Patterns of text with preferences, as in a search with backtracking.

`Pattern.ends` lists every place where a match that starts at a cursor may end, the preferred one
first: of two alternatives the first is preferred, a greedy repetition prefers to go on, a lazy
one prefers to stop. A run of characters of a class never ends before it has to, so it has one end;
it stands wherever what follows cannot start with a character of the class. A search takes the
leftmost start that has an end, and of its ends the preferred one.
-/

namespace Concordance

open Text

/-- A pattern of text. -/
inductive Pattern where
  /-- The empty text. -/
  | empty
  /-- One character of a class. -/
  | one (p : Char → Bool)
  /-- All characters of a class that come next. -/
  | run (p : Char → Bool)
  /-- One pattern after the other. -/
  | seq (p q : Pattern)
  /-- One pattern or the other, the first preferred. -/
  | alt (p q : Pattern)
  /-- Any number of times, each time in the preferred way; as often as possible is preferred if
  `greedy`, else as rarely. -/
  | many (greedy : Bool) (p : Pattern)
  /-- The pattern, its extent remembered under the number. -/
  | group (n : Nat) (p : Pattern)
  /-- The start of the text or of a line. -/
  | lineStart
  /-- The start of the text. -/
  | textStart
  /-- The end of the text. -/
  | textEnd
  /-- A place between a word character and something that is none. -/
  | wordEdge

/-- A place in a text: the character before it, its offset, the characters from it on, and the
groups remembered on the way, the latest first. -/
structure Cursor where
  before : Option Char
  offset : Nat
  rest : List Char
  groups : List (Nat × Span)
deriving Repr, DecidableEq

namespace Cursor

/-- The start of a text that stands at `offset`. -/
def start (offset : Nat) (text : List Char) : Cursor :=
  ⟨none, offset, text, []⟩

/-- The place after the next character. -/
def next? (c : Cursor) : Option (Char × Cursor) :=
  match c.rest with
  | [] => none
  | d :: ds => some (d, ⟨some d, c.offset + d.utf8Size, ds, c.groups⟩)

/-- A word character stands on one side only. -/
def onWordEdge (c : Cursor) : Bool :=
  (c.before.any isWordChar) != (c.rest.head?.any isWordChar)

/-- The first place among the characters that holds none of the class. -/
def runEnd (p : Char → Bool) (groups : List (Nat × Span)) :
    Option Char → Nat → List Char → Cursor
  | before, offset, [] => ⟨before, offset, [], groups⟩
  | before, offset, d :: ds =>
    if p d then runEnd p groups (some d) (offset + d.utf8Size) ds
    else ⟨before, offset, d :: ds, groups⟩

end Cursor

/-- The places reached by taking the first of the steps again and again, the last one first and in
front of those `passed` before. A step that does not move forward is not taken, so there are no more
steps than characters `left`. -/
def repeatEnds (step : Cursor → List Cursor) : List Char → Cursor → List Cursor → List Cursor
  | [], c, passed => c :: passed
  | _ :: left, c, passed =>
    match step c with
    | [] => c :: passed
    | d :: _ =>
      if c.offset < d.offset then repeatEnds step left d (c :: passed) else c :: passed

namespace Pattern

/-- The places where a match that starts at the cursor may end, the preferred one first. -/
def ends : Pattern → Cursor → List Cursor
  | .empty, c => [c]
  | .one p, c =>
    match c.next? with
    | some (d, next) => if p d then [next] else []
    | none => []
  | .run p, c => [Cursor.runEnd p c.groups c.before c.offset c.rest]
  | .seq p q, c => (p.ends c).flatMap q.ends
  | .alt p q, c => p.ends c ++ q.ends c
  | .many greedy p, c =>
    let places := repeatEnds p.ends c.rest c []
    if greedy then places else places.reverse
  | .group n p, c =>
    (p.ends c).map fun d => { d with groups := (n, ⟨c.offset, d.offset⟩) :: d.groups }
  | .lineStart, c => if c.before.all (· == '\n') then [c] else []
  | .textStart, c => if c.before.isNone then [c] else []
  | .textEnd, c => if c.rest.isEmpty then [c] else []
  | .wordEdge, c => if c.onWordEdge then [c] else []

/-- The characters of `text` in order. -/
def literal (text : String) : Pattern :=
  text.toList.foldr (fun c p => .seq (.one (· == c)) p) .empty

/-- The patterns one after the other. -/
def all (ps : List Pattern) : Pattern :=
  ps.foldr .seq .empty

/-- One of the patterns, an earlier one preferred. -/
def oneOf : List Pattern → Pattern
  | [] => .one fun _ => false
  | [p] => p
  | p :: ps => .alt p (oneOf ps)

/-- One of the texts, an earlier one preferred. -/
def keyword (texts : List String) : Pattern :=
  oneOf (texts.map literal)

/-- The pattern or nothing, the pattern preferred. -/
def optional (p : Pattern) : Pattern :=
  .alt p .empty

/-- One time or more, as many as possible preferred. -/
def oneOrMore (p : Pattern) : Pattern :=
  .seq p (.many true p)

/-- All characters of a class that come next, at least one. -/
def someOf (p : Char → Bool) : Pattern :=
  .seq (.one p) (.run p)

/-- All white space that comes next. -/
def blanks : Pattern :=
  .run isBlank

/-- All white space that comes next, at least one character of it. -/
def gap : Pattern :=
  someOf isBlank

/-- The start of a line and the spaces and tabs there. -/
def indent : Pattern :=
  .seq .lineStart (.run fun c => c == ' ' || c == '\t')

end Pattern

/-- A match: its extent and the groups remembered in it, the latest first. -/
structure Match where
  span : Span
  groups : List (Nat × Span)
deriving Repr, DecidableEq

namespace Match

/-- The extent of a group. -/
def group? (m : Match) (n : Nat) : Option Span :=
  m.groups.lookup n

end Match

namespace Pattern

/-- The leftmost match among the characters `rest`, which follow `before` at `offset`, and the
place where it ends. -/
def searchFrom? (p : Pattern) : Option Char → Nat → List Char → Option (Match × Cursor)
  | before, offset, [] =>
    match (p.ends ⟨before, offset, [], []⟩).head? with
    | some c => some (⟨⟨offset, c.offset⟩, c.groups⟩, c)
    | none => none
  | before, offset, d :: ds =>
    match (p.ends ⟨before, offset, d :: ds, []⟩).head? with
    | some c => some (⟨⟨offset, c.offset⟩, c.groups⟩, c)
    | none => searchFrom? p (some d) (offset + d.utf8Size) ds

/-- The leftmost match of a text that stands at `offset`. -/
def search? (p : Pattern) (offset : Nat) (text : List Char) : Option Match :=
  (p.searchFrom? none offset text).map Prod.fst

/-- The pattern matches somewhere in the text. -/
def matchesIn (p : Pattern) (text : List Char) : Bool :=
  (p.search? 0 text).isSome

/-- The match that starts where the text does, and the text after it. -/
def matchHere? (p : Pattern) (offset : Nat) (text : List Char) : Option (Match × List Char) :=
  (p.ends (Cursor.start offset text)).head?.map fun c =>
    (⟨⟨offset, c.offset⟩, c.groups⟩, c.rest)

/-- The matches from the cursor on, none overlapping another; after an empty match the search goes
on one character later. `fuel` bounds their number. -/
def searchAllFrom (p : Pattern) : Nat → Option Char → Nat → List Char → List Match
  | 0, _, _, _ => []
  | fuel + 1, before, offset, text =>
    match p.searchFrom? before offset text with
    | none => []
    | some (m, c) =>
      if m.span.start < m.span.stop then m :: p.searchAllFrom fuel c.before c.offset c.rest
      else
        match c.next? with
        | none => [m]
        | some (_, d) => m :: p.searchAllFrom fuel d.before d.offset d.rest

/-- The matches in a text that stands at `offset`, from the left and none overlapping another. -/
def searchAll (p : Pattern) (offset : Nat) (text : List Char) : List Match :=
  p.searchAllFrom (text.length + 1) none offset text

end Pattern

end Concordance
