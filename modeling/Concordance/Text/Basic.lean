/-!
Text as a list of characters, addressed by UTF-8 byte offsets.

An offset counts the bytes before a character, so the offset of a suffix is the byte length of
what stands before it. Main statements: `takeBytes_append_dropBytes` (a cut loses nothing) and
`byteLength_append`.
-/

namespace Concordance.Text

/-- Number of bytes the characters take in UTF-8. -/
def byteLength : List Char → Nat
  | [] => 0
  | c :: cs => c.utf8Size + byteLength cs

/-- The characters that start before byte `n`. -/
def takeBytes : Nat → List Char → List Char
  | _, [] => []
  | 0, _ => []
  | n, c :: cs => c :: takeBytes (n - c.utf8Size) cs

/-- The characters that start at byte `n` or later. -/
def dropBytes : Nat → List Char → List Char
  | _, [] => []
  | 0, cs => cs
  | n, c :: cs => dropBytes (n - c.utf8Size) cs

/-- The characters that start in the half-open byte range from `start` to `stop`. -/
def sliceBytes (start stop : Nat) (cs : List Char) : List Char :=
  takeBytes (stop - start) (dropBytes start cs)

/-- Byte `n` is the start of a character, or the end of the text. -/
def onBoundary (n : Nat) (cs : List Char) : Bool :=
  byteLength (takeBytes n cs) == n

@[simp] theorem byteLength_nil : byteLength [] = 0 := rfl

@[simp] theorem byteLength_cons (c : Char) (cs : List Char) :
    byteLength (c :: cs) = c.utf8Size + byteLength cs := rfl

@[simp] theorem byteLength_append (cs ds : List Char) :
    byteLength (cs ++ ds) = byteLength cs + byteLength ds := by
  induction cs with
  | nil => simp
  | cons c cs ih => simp [ih, Nat.add_assoc]

/-- A cut at any byte loses nothing. -/
theorem takeBytes_append_dropBytes (n : Nat) (cs : List Char) :
    takeBytes n cs ++ dropBytes n cs = cs := by
  induction cs generalizing n with
  | nil => cases n <;> rfl
  | cons c cs ih =>
    cases n with
    | zero => rfl
    | succ n => simp [takeBytes, dropBytes, ih]

/-- The order of texts by their characters, a text before those that go on after it. -/
def upTo : List Char → List Char → Bool
  | [], _ => true
  | _ :: _, [] => false
  | a :: as, b :: bs => if a = b then upTo as bs else a.toNat < b.toNat

/-- `text` after the leading `mark`, when it starts with it. -/
def stripFront? (mark text : List Char) : Option (List Char) :=
  if mark.isPrefixOf text then some (text.drop mark.length) else none

/-- `text` before the trailing `mark`, when it ends with it. -/
def stripBack? (mark text : List Char) : Option (List Char) :=
  if mark.isSuffixOf text then some (text.take (text.length - mark.length)) else none

/-- `text` without the longest tail whose characters all satisfy `p`. -/
def dropTail (p : Char → Bool) (text : List Char) : List Char :=
  (text.reverse.dropWhile p).reverse

/-- `mark` stands somewhere in `text`. -/
def contains (mark : List Char) : List Char → Bool
  | [] => mark.isEmpty
  | c :: cs => mark.isPrefixOf (c :: cs) || contains mark cs

/-- The part of `text` from the first `mark` on, when there is one. -/
def fromFirst? (mark : List Char) : List Char → Option (List Char)
  | [] => if mark.isEmpty then some [] else none
  | c :: cs => if mark.isPrefixOf (c :: cs) then some (c :: cs) else fromFirst? mark cs

/-- `text` with every `old` replaced by the characters `into`. -/
def replaceChar (old : Char) (into : List Char) (text : List Char) : List Char :=
  text.flatMap fun c => if c = old then into else [c]

/-- Letters `A` to `Z` made small, all else kept. -/
def asciiLower (text : List Char) : List Char :=
  text.map Char.toLower

/-- Letters `a` to `z` made capital, all else kept. -/
def asciiUpper (text : List Char) : List Char :=
  text.map Char.toUpper

end Concordance.Text
