import Concordance.Json.Binary
import Concordance.Text.Quoted

/-!
What can be wrong with a JSON text, and where.

A fault is kept with the number of bytes that are left behind its place; line and column follow
from the whole text.
-/

namespace Concordance.Json

open Text

/-- A number as it was read. -/
inductive Numeral where
  /-- A 64-bit number without a sign. -/
  | natural (value : Nat)
  /-- A negative 64-bit number by its distance from zero. -/
  | negative (value : Nat)
  /-- Any other number, with a sign or without. -/
  | binary (signed : Bool) (value : Binary)
deriving Repr, DecidableEq

/-- A value in place of another. -/
inductive Found where
  | null
  | bool (value : Bool)
  | number (value : Numeral)
  | text (value : List Char)
  | list
  | record
deriving Repr, DecidableEq

/-- A found value in words. -/
def Found.describe : Found → List Char
  | .null => "null".toList
  | .bool true => "boolean `true`".toList
  | .bool false => "boolean `false`".toList
  | .number (.natural n) => "integer `".toList ++ decimal n ++ ['`']
  | .number (.negative n) => "integer `-".toList ++ decimal n ++ ['`']
  | .number (.binary signed x) =>
    "floating point `".toList ++ (if signed then ['-'] else []) ++ x.render ++ ['`']
  | .text s => "string ".toList ++ quoted s
  | .list => "sequence".toList
  | .record => "map".toList

/-- What is wrong with a JSON text. -/
inductive Fault where
  | listNotClosed
  | recordNotClosed
  | stringNotClosed
  | valueMissing
  | expectedColon
  | expectedListEnd
  | expectedRecordEnd
  | expectedWord
  | expectedValue
  | badEscape
  | badNumber
  | numberTooLarge
  | controlCharacter
  | nameNotText
  | loneSurrogate
  | pairNotClosed
  | trailingComma
  | trailingCharacters
  /-- A value of another kind than the one expected. -/
  | wrongKind (found : Found) (expected : String)
  /-- A value of the right kind that is not allowed. -/
  | wrongValue (found : Found) (expected : String)
  | unknownChoice (name : List Char) (choices : List String)
  | missingField (name : String)
  | repeatedField (name : String)
  /-- A list in place of a record is too short. -/
  | tooShort (length : Nat) (expected : String)
deriving Repr, DecidableEq

/-- Names in backquotes: one, two with `or` between them, or more. -/
def oneOf : List String → String
  | [] => ""
  | [a] => "`" ++ a ++ "`"
  | [a, b] => "`" ++ a ++ "` or `" ++ b ++ "`"
  | names => "one of " ++ ", ".intercalate (names.map fun n => "`" ++ n ++ "`")

/-- A fault in words. -/
def Fault.message : Fault → String
  | .listNotClosed => "EOF while parsing a list"
  | .recordNotClosed => "EOF while parsing an object"
  | .stringNotClosed => "EOF while parsing a string"
  | .valueMissing => "EOF while parsing a value"
  | .expectedColon => "expected `:`"
  | .expectedListEnd => "expected `,` or `]`"
  | .expectedRecordEnd => "expected `,` or `\x7d`"
  | .expectedWord => "expected ident"
  | .expectedValue => "expected value"
  | .badEscape => "invalid escape"
  | .badNumber => "invalid number"
  | .numberTooLarge => "number out of range"
  | .controlCharacter => "control character (\\u0000-\\u001F) found while parsing a string"
  | .nameNotText => "key must be a string"
  | .loneSurrogate => "lone leading surrogate in hex escape"
  | .pairNotClosed => "unexpected end of hex escape"
  | .trailingComma => "trailing comma"
  | .trailingCharacters => "trailing characters"
  | .wrongKind found expected =>
    "invalid type: " ++ String.ofList found.describe ++ ", expected " ++ expected
  | .wrongValue found expected =>
    "invalid value: " ++ String.ofList found.describe ++ ", expected " ++ expected
  | .unknownChoice name choices =>
    "unknown variant `" ++ String.ofList name ++ "`, expected " ++ oneOf choices
  | .missingField name => "missing field `" ++ name ++ "`"
  | .repeatedField name => "duplicate field `" ++ name ++ "`"
  | .tooShort length expected =>
    "invalid length " ++ toString length ++ ", expected " ++ expected

/-- A fault and the number of bytes that are left behind its place. -/
structure Failure where
  fault : Fault
  left : Nat
deriving Repr, DecidableEq

/-- The fault right before what is left of the text. -/
def failHere (fault : Fault) (rest : List Char) : Failure :=
  ⟨fault, byteLength rest⟩

/-- The fault behind the next `count` bytes of what is left of the text. -/
def failPast (count : Nat) (fault : Fault) (rest : List Char) : Failure :=
  ⟨fault, byteLength rest - count⟩

/-- The fault behind the next byte of what is left of the text. -/
def failNext (fault : Fault) (rest : List Char) : Failure :=
  failPast 1 fault rest

/-- The line, from one on, and the column in bytes of a place, given by the number of bytes before
it; a character counts for a place when it starts before it. -/
def placeOf (offset : Nat) (text : List Char) : Nat × Nat :=
  let before := takeBytes offset text
  let lineBytes := byteLength (before.reverse.takeWhile (· ≠ '\n'))
  (before.count '\n' + 1, lineBytes + offset - byteLength before)

/-- A failure in words, with its line and column in the text. -/
def Failure.message (f : Failure) (text : List Char) : String :=
  let (line, column) := placeOf (byteLength text - f.left) text
  f.fault.message ++ " at line " ++ toString line ++ " column " ++ toString column

end Concordance.Json
