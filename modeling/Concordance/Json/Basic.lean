import Concordance.Text.Number

/-!
JSON values and how they are written.

A value is written over several lines, two blanks for each level; an empty list or record stays on
one line. Fields are written in the order of the record.
-/

namespace Concordance

open Text

/-- A JSON value. Numbers are counts, so there are no fractions. -/
inductive Json where
  | null
  | bool (value : Bool)
  | number (value : Nat)
  | text (value : String)
  | list (items : List Json)
  | record (fields : List (String × Json))
deriving Repr, Inhabited

namespace Json

/-- The two hexadecimal digits of a number below 256. -/
def hexPair (n : Nat) : List Char :=
  [Nat.digitChar (n / 16), Nat.digitChar (n % 16)]

/-- A character inside a string. -/
def escapedChar (c : Char) : List Char :=
  if c = '"' ∨ c = '\\' then ['\\', c]
  else if c = '\n' then ['\\', 'n']
  else if c = '\r' then ['\\', 'r']
  else if c = '\t' then ['\\', 't']
  else if c = Char.ofNat 8 then ['\\', 'b']
  else if c = Char.ofNat 12 then ['\\', 'f']
  else if c.toNat < 0x20 then ['\\', 'u', '0', '0'] ++ hexPair c.toNat
  else [c]

/-- A string with its quotes. -/
def string (text : String) : List Char :=
  ['"'] ++ text.toList.flatMap escapedChar ++ ['"']

/-- A line feed and the blanks of a level. -/
def newLine (depth : Nat) : List Char :=
  '\n' :: List.replicate (2 * depth) ' '

mutual

/-- A value at a level. -/
def render (depth : Nat) : Json → List Char
  | .null => "null".toList
  | .bool true => "true".toList
  | .bool false => "false".toList
  | .number value => decimal value
  | .text value => string value
  | .list items =>
    if items.isEmpty then "[]".toList
    else ['['] ++ renderItems (depth + 1) items ++ newLine depth ++ [']']
  | .record fields =>
    if fields.isEmpty then ['{', '}']
    else ['{'] ++ renderFields (depth + 1) fields ++ newLine depth ++ ['}']

/-- The items of a list, each on a new line. -/
def renderItems (depth : Nat) : List Json → List Char
  | [] => []
  | item :: rest =>
    newLine depth ++ render depth item ++ (if rest.isEmpty then [] else [',']) ++
      renderItems depth rest

/-- The fields of a record, each on a new line. -/
def renderFields (depth : Nat) : List (String × Json) → List Char
  | [] => []
  | (name, value) :: rest =>
    newLine depth ++ string name ++ [':', ' '] ++ render depth value ++
      (if rest.isEmpty then [] else [',']) ++ renderFields depth rest

end

/-- A value over several lines. -/
def pretty (value : Json) : List Char :=
  value.render 0

end Json

end Concordance
