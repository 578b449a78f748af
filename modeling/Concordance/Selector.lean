import Concordance.Text.Occurrence

/-!
Selectors of stylesheets: the class or id a selector is known by, the parts of a selector list,
and where a token stands as a whole.
-/

namespace Concordance

open Text

/-- A character of a name in a stylesheet: a letter, a number, `-` or `_`. -/
def isNameChar (c : Char) : Bool :=
  isAlphanumeric c || c == '-' || c == '_'

/-- The class or id that a selector is known by. -/
inductive SelectorKey where
  | className (name : List Char)
  | id (name : List Char)
deriving Repr, DecidableEq

namespace SelectorKey

/-- The name without its mark. -/
def name : SelectorKey → List Char
  | .className name => name
  | .id name => name

/-- The key as a selector writes it. -/
def token : SelectorKey → List Char
  | .className name => '.' :: name
  | .id name => '#' :: name

/-- The key that a mark and a name make; a name starts with something other than a digit. -/
def make? (mark : Char) (name : List Char) : Option SelectorKey :=
  match name with
  | [] => none
  | c :: _ => if c.isDigit then none else some (if mark == '.' then .className name else .id name)

end SelectorKey

/-- The last key among the characters, `depth` brackets being open before them; `skip` characters
are passed over, because a backslash hides them or a key before took them, and `last` is the key
found before. -/
def lastKey : Nat → Nat → Option SelectorKey → List Char → Option SelectorKey
  | _, _, last, [] => last
  | skip + 1, depth, last, _ :: cs => lastKey skip depth last cs
  | 0, depth, last, c :: cs =>
    if c = '\\' then lastKey 1 depth last cs
    else if c = '(' ∨ c = '[' then lastKey 0 (depth + 1) last cs
    else if c = ')' ∨ c = ']' then lastKey 0 (depth - 1) last cs
    else if (c = '.' ∨ c = '#') ∧ depth = 0 then
      let name := cs.takeWhile isNameChar
      lastKey name.length depth (SelectorKey.make? c name <|> last) cs
    else lastKey 0 depth last cs

/-- The last class or id of a selector outside brackets and parentheses. -/
def selectorKey? (selector : List Char) : Option SelectorKey :=
  lastKey 0 0 none selector

/-- The occurrence of a token is bounded: nothing that continues a name follows it and, unless the
token starts with its own mark, nothing that a name could continue from comes before it. -/
def isTokenEdge (token : List Char) (o : Occurrence) : Bool :=
  let marked := token.head? == some '.' || token.head? == some '#'
  (marked || edge (fun c => isNameChar c || c == '$') o.before) && edge isNameChar o.after.head?

/-- Byte offsets where the token stands as a whole. -/
def tokenOffsets (token text : List Char) : List Nat :=
  if token.isEmpty then []
  else ((occurrences token text).filter (isTokenEdge token)).map Occurrence.offset

/-- The first byte offset where `name` is one of the words of `list`. -/
def classOffset? (name list : List Char) : Option Nat :=
  ((wordsFrom 0 list).find? fun w => w.2 == name).map Prod.fst

/-- The parts of a selector list from `offset` on, `depth` brackets being open: each part with its
byte offset. `part` holds the characters of the part so far, the latest first, and `start` is its
offset. -/
def splitSelectorsFrom (start : Nat) (part : List Char) (depth offset : Nat) :
    List Char → List (Nat × List Char)
  | [] => [(start, part.reverse)]
  | c :: cs =>
    let next := offset + c.utf8Size
    if c = ',' ∧ depth = 0 then (start, part.reverse) :: splitSelectorsFrom next [] depth next cs
    else if c = '(' ∨ c = '[' then splitSelectorsFrom start (c :: part) (depth + 1) next cs
    else if c = ')' ∨ c = ']' then splitSelectorsFrom start (c :: part) (depth - 1) next cs
    else splitSelectorsFrom start (c :: part) depth next cs

/-- The parts of a selector list between commas outside brackets, each with its byte offset. -/
def splitSelectors (text : List Char) : List (Nat × List Char) :=
  splitSelectorsFrom 0 [] 0 0 text

end Concordance
