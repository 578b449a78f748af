import Concordance.Source.Basic

/-!
The code of a source text: what is left when comments and string literals are passed over.

`SourceText.codeFrom` lists the code characters met from a byte on. Matching braces and finding the
block that opens after a signature are searches in that list, and tracking the depth of nesting is a
fold over it, so they count the same braces. A search reads no further than it has to;
`searchCode_eq` says that it finds what a search in the whole list finds.
-/

namespace Concordance

open Text

/-- Where a reading for code stands. -/
inductive CodeReading where
  /-- After a character of code. -/
  | code
  /-- After the quote that closes a literal. -/
  | closed
  /-- In a literal opened by the quote. -/
  | literal (quote : Char)
  /-- After a backslash in a literal. -/
  | escaped (quote : Char)
  /-- In a comment that ends at the byte. -/
  | comment (stop : Nat)
deriving Repr, DecidableEq

/-- A code character and its byte offset. -/
structure CodeChar where
  offset : Nat
  char : Char
deriving Repr, DecidableEq

/-- The comments, in reading order, that do not end before the byte. -/
def commentsAhead (offset : Nat) (comments : List Span) : List Span :=
  comments.dropWhile (·.stop ≤ offset)

namespace CodeReading

/-- Where the reading stands after the character at a byte that neither a literal nor a comment begun
before it covers; `comments` are those ahead. -/
def fresh (quotes : List Char) (comments : List Span) (offset : Nat) (c : Char) : CodeReading :=
  match comments.head?.filter (·.covers offset) with
  | some span => .comment span.stop
  | none => if quotes.contains c then .literal c else .code

/-- The last character read was code. -/
def isCode : CodeReading → Bool
  | .code => true
  | _ => false

/-- Where the reading stands after the character at the byte. -/
def step (quotes : List Char) (comments : List Span) (offset : Nat) (c : Char) :
    CodeReading → CodeReading
  | .code => fresh quotes comments offset c
  | .closed => fresh quotes comments offset c
  | .escaped quote => .literal quote
  | .literal quote =>
    if c = '\\' then .escaped quote
    else if c = quote then .closed
    else if LexicalRules.breaksAt quote c then fresh quotes comments offset c
    else .literal quote
  | .comment stop => if offset < stop then .comment stop else fresh quotes comments offset c

end CodeReading

/-- The code characters of `cs`, which stand at `offset`; `comments` holds those ahead. -/
def codeIn (quotes : List Char) : CodeReading → List Span → Nat → List Char → List CodeChar
  | _, _, _, [] => []
  | reading, comments, offset, c :: cs =>
    let comments := commentsAhead offset comments
    let next := reading.step quotes comments offset c
    let later := codeIn quotes next comments (offset + c.utf8Size) cs
    if next.isCode then ⟨offset, c⟩ :: later else later

/-- What a search in code does after a character. -/
inductive Verdict (σ : Type) where
  /-- It goes on. -/
  | go (state : σ)
  /-- It ends with the answer. -/
  | stop (answer : Option Nat)

/-- The answer of a search in a list of code characters, none if it does not end. -/
def searchList {σ : Type} (visit : σ → CodeChar → Verdict σ) : σ → List CodeChar → Option Nat
  | _, [] => none
  | state, c :: rest =>
    match visit state c with
    | .go state => searchList visit state rest
    | .stop answer => answer

/-- The answer of a search in the code of `cs`, which stand at `offset`; `comments` holds those
ahead. -/
def searchCode {σ : Type} (visit : σ → CodeChar → Verdict σ) (quotes : List Char) :
    σ → CodeReading → List Span → Nat → List Char → Option Nat
  | _, _, _, _, [] => none
  | state, reading, comments, offset, c :: cs =>
    let comments := commentsAhead offset comments
    let next := reading.step quotes comments offset c
    if next.isCode then
      match visit state ⟨offset, c⟩ with
      | .go state => searchCode visit quotes state next comments (offset + c.utf8Size) cs
      | .stop answer => answer
    else searchCode visit quotes state next comments (offset + c.utf8Size) cs

/-- A search that reads no further than it has to finds what a search in all the code finds. -/
theorem searchCode_eq {σ : Type} (visit : σ → CodeChar → Verdict σ) (quotes : List Char)
    (state : σ) (reading : CodeReading) (comments : List Span) (offset : Nat) (cs : List Char) :
    searchCode visit quotes state reading comments offset cs =
      searchList visit state (codeIn quotes reading comments offset cs) := by
  induction cs generalizing state reading comments offset with
  | nil => rfl
  | cons c cs ih =>
    simp only [searchCode, codeIn]
    split
    · simp only [searchList]
      split <;> simp_all
    · exact ih ..

/-- Look for the closing brace at which the braces read so far balance, `depth` being open. -/
def closingBrace (depth : Int) (c : CodeChar) : Verdict Int :=
  if c.char = '{' then .go (depth + 1)
  else if c.char = '}' then
    if depth - 1 = 0 then .stop (some c.offset) else .go (depth - 1)
  else .go depth

/-- Look for the brace that opens outside parentheses, of which `depth` are open, unless a semicolon
outside them comes first. -/
def blockOpen (depth : Nat) (c : CodeChar) : Verdict Nat :=
  if c.char = '(' then .go (depth + 1)
  else if c.char = ')' then .go (depth - 1)
  else if c.char = '{' ∧ depth = 0 then .stop (some c.offset)
  else if c.char = ';' ∧ depth = 0 then .stop none
  else .go depth

/-- The depth of nesting after a code character, never below zero. -/
def braceDepth (depth : Nat) (c : Char) : Nat :=
  if c = '{' then depth + 1 else if c = '}' then depth - 1 else depth

/-- A count of open braces that moves forward through the code. -/
structure DepthTracker where
  depth : Nat
  quotes : List Char
  reading : CodeReading
  comments : List Span
  offset : Nat
  rest : List Char
deriving Repr, DecidableEq

namespace DepthTracker

/-- The tracker after the characters before `target`. -/
def advance (target : Nat) (quotes : List Char) :
    Nat → CodeReading → List Span → Nat → List Char → DepthTracker
  | depth, reading, comments, offset, [] => ⟨depth, quotes, reading, comments, offset, []⟩
  | depth, reading, comments, offset, c :: cs =>
    if offset < target then
      let comments := commentsAhead offset comments
      let next := reading.step quotes comments offset c
      let depth := if next.isCode then braceDepth depth c else depth
      advance target quotes depth next comments (offset + c.utf8Size) cs
    else ⟨depth, quotes, reading, comments, offset, c :: cs⟩

/-- The tracker after all code before `target`. It never moves back. -/
def advanceTo (target : Nat) (t : DepthTracker) : DepthTracker :=
  advance target t.quotes t.depth t.reading t.comments t.offset t.rest

/-- Keep the values whose offset lies outside all braces, in ascending order of offset. -/
def outermost {α : Type} (offset : α → Nat) : DepthTracker → List α → List α
  | _, [] => []
  | t, a :: rest =>
    let t := t.advanceTo (offset a)
    if t.depth = 0 then a :: outermost offset t rest else outermost offset t rest

end DepthTracker

namespace SourceText

/-- The code characters met when the text is read as code from the byte on. -/
def codeFrom (s : SourceText) (offset : Nat) : List CodeChar :=
  let p := s.spotAt offset
  codeIn s.rules.quotes .code s.comments p.offset p.rest

/-- The answer of a search in the code from the place on. -/
def searchFrom {σ : Type} (s : SourceText) (visit : σ → CodeChar → Verdict σ) (state : σ)
    (p : Spot) : Option Nat :=
  searchCode visit s.rules.quotes state .code s.comments p.offset p.rest

theorem searchFrom_spotAt {σ : Type} (s : SourceText) (visit : σ → CodeChar → Verdict σ) (state : σ)
    (offset : Nat) :
    s.searchFrom visit state (s.spotAt offset) = searchList visit state (s.codeFrom offset) :=
  searchCode_eq ..

/-- The brace that closes the one at `start`. -/
def matchingBrace? (s : SourceText) (start : Nat) : Option Nat :=
  let p := s.spotAt start
  if p.offset = start ∧ p.rest.head? = some '{' then s.searchFrom closingBrace 0 p else none

/-- The brace that opens a block after `start`, where `parens` parentheses are open. -/
def findBlockOpen? (s : SourceText) (start parens : Nat) : Option Nat :=
  s.searchFrom blockOpen parens (s.spotAt start)

/-- A tracker that starts at the byte with no brace open. -/
def depthTracker (s : SourceText) (start : Nat) : DepthTracker :=
  let p := s.spotAt start
  ⟨0, s.rules.quotes, .code, s.comments, p.offset, p.rest⟩

/-- The length in bytes of the rest of a literal opened by `quote`, its closing quote included. -/
def literalLength (quote : Char) : List Char → Nat
  | [] => 0
  | '\\' :: [] => 1
  | '\\' :: c :: cs => 1 + c.utf8Size + literalLength quote cs
  | c :: cs =>
    if c = quote then c.utf8Size
    else if LexicalRules.breaksAt quote c then 0
    else c.utf8Size + literalLength quote cs

/-- The end of the string literal that opens at the byte. -/
def stringEnd? (s : SourceText) (offset : Nat) : Option Nat :=
  match s.charAt? offset with
  | none => none
  | some c =>
    if s.rules.quotes.contains c then
      some (offset + c.utf8Size + literalLength c ((dropBytes offset s.chars).drop 1))
    else none

end SourceText

end Concordance
