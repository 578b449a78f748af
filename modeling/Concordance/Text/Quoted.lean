import Concordance.Text.Printable

/-!
A text in double quotes, as it is shown in a message: on one line, and with an escape for what
cannot be seen.
-/

namespace Concordance.Text

/-- A number in hexadecimal with small letters. -/
def hexadecimal (n : Nat) : List Char :=
  Nat.toDigits 16 n

/-- A character inside double quotes. -/
def quotedChar (c : Char) : List Char :=
  if c = Char.ofNat 0 then ['\\', '0']
  else if c = '\t' then ['\\', 't']
  else if c = '\r' then ['\\', 'r']
  else if c = '\n' then ['\\', 'n']
  else if c = '"' ∨ c = '\\' then ['\\', c]
  else if isPrintable c then [c]
  else ['\\', 'u', '{'] ++ hexadecimal c.toNat ++ ['}']

/-- A text in double quotes. -/
def quoted (text : List Char) : List Char :=
  ['"'] ++ text.flatMap quotedChar ++ ['"']

end Concordance.Text
