import Concordance.Text.Basic

/-!
Comments of a source text, found by reading it once from the left.

String literals hide comment marks, comments hide quotes. A literal ends at its quote or, unless
it is a template literal, at the end of the line; a backslash hides the character after it.
-/

namespace Concordance

/-- A half-open stretch of bytes. -/
structure Span where
  start : Nat
  stop : Nat
deriving Repr, DecidableEq, Inhabited

namespace Span

/-- The byte lies in the stretch. -/
def covers (s : Span) (offset : Nat) : Bool :=
  s.start ≤ offset && offset < s.stop

/-- The byte lies in the stretch but is not its first. -/
def strictlyCovers (s : Span) (offset : Nat) : Bool :=
  s.start < offset && offset < s.stop

end Span

/-- What a language writes around comments and string literals. -/
structure LexicalRules where
  /-- Marks of a comment that runs to the end of the line. -/
  lineMarks : List (List Char)
  /-- Characters that open and close a string literal. -/
  quotes : List Char
deriving Repr, DecidableEq

namespace LexicalRules

/-- A template literal may run over several lines. -/
def spansLines (quote : Char) : Bool :=
  quote == '`'

/-- The literal opened by `quote` stops before the line feed `c`. -/
def breaksAt (quote c : Char) : Bool :=
  c == '\n' && !spansLines quote

end LexicalRules

/-- Where a reading for comments stands. -/
inductive CommentReading where
  /-- In code. -/
  | code
  /-- In a literal opened by the quote. -/
  | literal (quote : Char)
  /-- After a backslash in a literal. -/
  | escaped (quote : Char)
  /-- Between the two characters of the block comment's opening at `start`. -/
  | opening (start : Nat)
  /-- In the block comment that starts at `start`; `star` tells whether a star came last. -/
  | block (start : Nat) (star : Bool)
  /-- In the comment that starts at `start` and ends with the line. -/
  | line (start : Nat)
deriving Repr, DecidableEq

namespace CommentReading

/-- Where the reading stands after the code character `c` at `offset`, before the characters
`rest`. -/
def afterCode (rules : LexicalRules) (offset : Nat) (c : Char) (rest : List Char) :
    CommentReading :=
  if rules.quotes.contains c then .literal c
  else if c = '/' ∧ rest.head? = some '*' then .opening offset
  else if rules.lineMarks.any (·.isPrefixOf (c :: rest)) then .line offset
  else .code

/-- The comment that is open where the text ends. -/
def unfinished (stop : Nat) : CommentReading → List Span
  | .opening start => [⟨start, stop⟩]
  | .block start _ => [⟨start, stop⟩]
  | .line start => [⟨start, stop⟩]
  | _ => []

/-- The comment that the character `c` at `offset` completes, and where the reading stands after
it. -/
def step (rules : LexicalRules) (offset : Nat) (c : Char) (rest : List Char) :
    CommentReading → List Span × CommentReading
  | .code => ([], afterCode rules offset c rest)
  | .escaped quote => ([], .literal quote)
  | .literal quote =>
    if c = '\\' then ([], .escaped quote)
    else if c = quote then ([], .code)
    else if LexicalRules.breaksAt quote c then ([], afterCode rules offset c rest)
    else ([], .literal quote)
  | .opening start => ([], .block start false)
  | .block start star =>
    if star && c == '/' then ([⟨start, offset + 1⟩], .code) else ([], .block start (c == '*'))
  | .line start =>
    if c = '\n' then ([⟨start, offset⟩], afterCode rules offset c rest) else ([], .line start)

end CommentReading

/-- The comments met from `offset` on. -/
def commentsFrom (rules : LexicalRules) : CommentReading → Nat → List Char → List Span
  | reading, offset, [] => reading.unfinished offset
  | reading, offset, c :: cs =>
    let (found, next) := reading.step rules offset c cs
    found ++ commentsFrom rules next (offset + c.utf8Size) cs

/-- The comments of a text in reading order. -/
def commentSpans (rules : LexicalRules) (text : List Char) : List Span :=
  commentsFrom rules .code 0 text

end Concordance
