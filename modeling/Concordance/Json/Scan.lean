import Concordance.Json.Fault

/-!
The pieces of a JSON text: white space, words, strings and numbers.

Each reader takes what is left of the text and gives back its result and what is left after it.
-/

namespace Concordance.Json

open Text

/-- A reader takes a value from the front of a text. -/
abbrev Reader (α : Type) := List Char → Except Failure (α × List Char)

/-- White space between the pieces of a JSON text. -/
def isSpace (c : Char) : Bool :=
  c == ' ' || c == '\n' || c == '\t' || c == '\r'

/-- The text without white space at its front. -/
def skipSpace (text : List Char) : List Char :=
  text.dropWhile isSpace

/-- The rest of a word whose first letter is known. -/
def word : List Char → List Char → Except Failure (List Char)
  | [], rest => .ok rest
  | _ :: _, [] => .error (failHere .valueMissing [])
  | w :: ws, c :: cs => if c = w then word ws cs else .error (failNext .expectedWord (c :: cs))

/-- The value of a hexadecimal digit. -/
def hexDigit? (c : Char) : Option Nat :=
  if '0' ≤ c ∧ c ≤ '9' then some (c.toNat - '0'.toNat)
  else if 'a' ≤ c ∧ c ≤ 'f' then some (c.toNat - 'a'.toNat + 10)
  else if 'A' ≤ c ∧ c ≤ 'F' then some (c.toNat - 'A'.toNat + 10)
  else none

/-- The value of four hexadecimal digits. -/
def fourHex? : List Char → Option (Nat × List Char)
  | a :: b :: c :: d :: rest =>
    match hexDigit? a, hexDigit? b, hexDigit? c, hexDigit? d with
    | some a, some b, some c, some d => some (((a * 16 + b) * 16 + c) * 16 + d, rest)
    | _, _, _, _ => none
  | _ => none

/-- The code unit that four hexadecimal digits write. -/
def codeUnit : Reader Nat := fun rest =>
  if byteLength rest < 4 then .error (failHere .stringNotClosed [])
  else
    match fourHex? rest with
    | some r => .ok r
    | none => .error (failPast 4 .badEscape rest)

/-- The code unit is the first of a pair. -/
def isHighSurrogate (n : Nat) : Bool :=
  0xd800 ≤ n && n ≤ 0xdbff

/-- The code unit is the second of a pair. -/
def isLowSurrogate (n : Nat) : Bool :=
  0xdc00 ≤ n && n ≤ 0xdfff

/-- A mark that has to stand between the two code units of a pair. -/
def pairMark (mark : Char) : List Char → Except Failure (List Char)
  | [] => .error (failHere .stringNotClosed [])
  | c :: cs => if c = mark then .ok cs else .error (failNext .pairNotClosed (c :: cs))

/-- The second code unit of a pair, with the character that the pair writes. -/
def pairEnd (high : Nat) (rest : List Char) : Except Failure (Char × List Char) :=
  match pairMark '\\' rest with
  | .error e => .error e
  | .ok rest =>
    match pairMark 'u' rest with
    | .error e => .error e
    | .ok rest =>
      match codeUnit rest with
      | .error e => .error e
      | .ok (low, rest) =>
        if isLowSurrogate low then
          .ok (Char.ofNat (0x10000 + (high - 0xd800) * 0x400 + (low - 0xdc00)), rest)
        else .error (failHere .loneSurrogate rest)

/-- A character written by its code units. -/
def codeEscape (rest : List Char) : Except Failure (Char × List Char) :=
  match codeUnit rest with
  | .error e => .error e
  | .ok (n, rest) =>
    if isLowSurrogate n then .error (failHere .loneSurrogate rest)
    else if isHighSurrogate n then pairEnd n rest
    else .ok (Char.ofNat n, rest)

/-- The character that a letter behind a backslash stands for. -/
def simpleEscape? (c : Char) : Option Char :=
  match c with
  | '"' => some '"'
  | '\\' => some '\\'
  | '/' => some '/'
  | 'b' => some (Char.ofNat 8)
  | 'f' => some (Char.ofNat 12)
  | 'n' => some '\n'
  | 'r' => some '\r'
  | 't' => some '\t'
  | _ => none

/-- The character behind a backslash. -/
def escape : List Char → Except Failure (Char × List Char)
  | [] => .error (failHere .stringNotClosed [])
  | c :: cs =>
    if c = 'u' then codeEscape cs
    else
      match simpleEscape? c with
      | some d => .ok (d, cs)
      | none => .error (failNext .badEscape (c :: cs))

/-- The characters of a string behind its opening quote. The count is an upper bound on their
number. -/
def stringBody : Nat → Reader (List Char)
  | _, [] => .error (failHere .stringNotClosed [])
  | 0, rest => .error (failHere .stringNotClosed rest)
  | fuel + 1, c :: cs =>
    if c = '"' then .ok ([], cs)
    else if c = '\\' then
      match escape cs with
      | .error e => .error e
      | .ok (d, rest) =>
        match stringBody fuel rest with
        | .error e => .error e
        | .ok (ds, rest) => .ok (d :: ds, rest)
    else if c.toNat < 0x20 then .error (failNext .controlCharacter (c :: cs))
    else
      match stringBody fuel cs with
      | .error e => .error e
      | .ok (ds, rest) => .ok (c :: ds, rest)

/-- The string behind its opening quote. -/
def stringTail : Reader (List Char) := fun rest =>
  stringBody rest.length rest

/-- What is left after a string that nobody reads. Its code units need not make characters. -/
def skipString : Nat → List Char → Except Failure (List Char)
  | _, [] => .error (failHere .stringNotClosed [])
  | 0, rest => .error (failHere .stringNotClosed rest)
  | fuel + 1, c :: cs =>
    if c = '"' then .ok cs
    else if c = '\\' then
      match cs with
      | [] => .error (failHere .stringNotClosed [])
      | d :: ds =>
        if d = 'u' then
          match codeUnit ds with
          | .error e => .error e
          | .ok (_, rest) => skipString fuel rest
        else if (simpleEscape? d).isSome then skipString fuel ds
        else .error (failNext .badEscape (d :: ds))
    else if c.toNat < 0x20 then .error (failHere .controlCharacter (c :: cs))
    else skipString fuel cs

/-- The digits at the front of a text, and the rest. -/
def spanDigits (text : List Char) : List Char × List Char :=
  (text.takeWhile Char.isDigit, text.dropWhile Char.isDigit)

/-- The value of a digit. -/
def digitValue (c : Char) : Nat :=
  c.toNat - '0'.toNat

/-- Digits read into a 64-bit number as far as it holds them, with the count of those that were
read, and the first of those that were not. -/
def takeDigits : Nat → Nat → List Char → Nat × Nat × List Char
  | value, count, [] => (value, count, [])
  | value, count, c :: cs =>
    if c.isDigit ∧ value * 10 + digitValue c ≤ maxNumber then
      takeDigits (value * 10 + digitValue c) (count + 1) cs
    else (value, count, c :: cs)

/-- The largest exponent that is counted. -/
def maxExponent : Nat := 0x7fffffff

/-- The digits of an exponent; `none` stands for one too large to count, with what is left behind
the digit that made it so. -/
def exponentDigits : Nat → List Char → Option Nat × List Char
  | e, [] => (some e, [])
  | e, c :: cs =>
    if c.isDigit then
      if e * 10 + digitValue c ≤ maxExponent then exponentDigits (e * 10 + digitValue c) cs
      else (none, cs)
    else (some e, c :: cs)

/-- The number `digits * 10 ^ k`. -/
def fraction (signed : Bool) (digits : Nat) (k : Int) (rest : List Char) :
    Except Failure (Numeral × List Char) :=
  match Binary.ofDecimal? digits k with
  | some x => .ok (.binary signed x, rest)
  | none => .error (failHere .numberTooLarge rest)

/-- A sign in front of an exponent: whether it is negative, and the rest. -/
def exponentSign : List Char → Bool × List Char
  | '+' :: rest => (false, rest)
  | '-' :: rest => (true, rest)
  | rest => (false, rest)

/-- The exponent behind its letter. -/
def exponentTail (signed : Bool) (digits : Nat) (k : Int) (rest : List Char) :
    Except Failure (Numeral × List Char) :=
  let (down, rest) := exponentSign rest
  match rest with
  | [] => .error (failHere .valueMissing [])
  | c :: cs =>
    if c.isDigit then
      match exponentDigits (digitValue c) cs with
      | (some e, rest) => fraction signed digits (if down then k - e else k + e) rest
      | (none, rest) =>
        if digits ≠ 0 ∧ ¬ down then .error (failHere .numberTooLarge rest)
        else .ok (.binary signed ⟨0, Binary.minExponent⟩, (spanDigits rest).2)
    else .error (failNext .badNumber (c :: cs))

/-- What follows the digits of a number with a fraction. -/
def fractionEnd (signed : Bool) (digits : Nat) (k : Int) :
    List Char → Except Failure (Numeral × List Char)
  | c :: cs =>
    if c = 'e' ∨ c = 'E' then exponentTail signed digits k cs
    else fraction signed digits k (c :: cs)
  | [] => fraction signed digits k []

/-- The digits behind the point. Those that a 64-bit number does not hold are passed over. -/
def pointTail (signed : Bool) (digits : Nat) (k : Int) (rest : List Char) :
    Except Failure (Numeral × List Char) :=
  let (digits, count, after) := takeDigits digits 0 rest
  let (more, after) := spanDigits after
  if count = 0 ∧ more = [] then
    .error (failNext (if after = [] then .valueMissing else .badNumber) after)
  else fractionEnd signed digits (k - count) after

/-- A number whose digits up to here are known: what follows makes it a fraction, or it stays
whole. -/
def numberEnd (signed : Bool) (digits : Nat) (rest : List Char) :
    Except Failure (Numeral × List Char) :=
  match rest with
  | '.' :: cs => pointTail signed digits 0 cs
  | 'e' :: cs => exponentTail signed digits 0 cs
  | 'E' :: cs => exponentTail signed digits 0 cs
  | _ =>
    if ¬ signed then .ok (.natural digits, rest)
    else if 0 < digits ∧ digits ≤ 0x8000000000000000 then .ok (.negative digits, rest)
    else fraction true digits 0 rest

/-- A number with more digits than a 64-bit number holds. -/
def longNumber (signed : Bool) (digits : Nat) (rest : List Char) :
    Except Failure (Numeral × List Char) :=
  let (more, after) := spanDigits rest
  match after with
  | '.' :: cs => pointTail signed digits more.length cs
  | _ => fractionEnd signed digits more.length after

/-- A number behind its sign. -/
def numberTail (signed : Bool) : Reader Numeral
  | [] => .error (failHere .valueMissing [])
  | c :: cs =>
    if c = '0' then
      match cs with
      | d :: _ =>
        if d.isDigit then .error (failNext .badNumber cs) else numberEnd signed 0 cs
      | [] => numberEnd signed 0 cs
    else if c.isDigit then
      let (digits, _, rest) := takeDigits (digitValue c) 1 cs
      match rest with
      | d :: _ => if d.isDigit then longNumber signed digits rest else numberEnd signed digits rest
      | [] => numberEnd signed digits rest
    else .error (failNext .badNumber (c :: cs))

/-- The exponent behind its letter, of a number that nobody reads. -/
def skipExponent (rest : List Char) : Except Failure (List Char) :=
  let (_, rest) := exponentSign rest
  match rest with
  | [] => .error (failHere .badNumber [])
  | c :: cs => if c.isDigit then .ok (spanDigits cs).2 else .error (failNext .badNumber (c :: cs))

/-- What is left after a number that nobody reads. -/
def skipNumberEnd : List Char → Except Failure (List Char)
  | '.' :: cs =>
    match spanDigits cs with
    | ([], rest) => .error (failNext .badNumber rest)
    | (_, 'e' :: rest) => skipExponent rest
    | (_, 'E' :: rest) => skipExponent rest
    | (_, rest) => .ok rest
  | 'e' :: cs => skipExponent cs
  | 'E' :: cs => skipExponent cs
  | rest => .ok rest

/-- What is left after a number, behind its sign, that nobody reads. -/
def skipNumber : List Char → Except Failure (List Char)
  | [] => .error (failHere .badNumber [])
  | c :: cs =>
    if c = '0' then
      match cs with
      | d :: _ => if d.isDigit then .error (failNext .badNumber cs) else skipNumberEnd cs
      | [] => skipNumberEnd cs
    else if c.isDigit then skipNumberEnd (spanDigits cs).2
    else .error (failNext .badNumber (c :: cs))

end Concordance.Json
