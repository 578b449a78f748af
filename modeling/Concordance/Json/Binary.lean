import Concordance.Text.Number

/-!
Binary floating point numbers of 64 bits, and the fewest decimal digits that name one.

A finite number is `m * 2 ^ e` with `m` below `2 ^ 53` and `e` at least `-1074`. Everything is
exact arithmetic on natural numbers: a quotient is rounded to the nearest such number, of two equally
near ones to the one with even `m`.
-/

namespace Concordance

open Text

/-- The finite number `mantissa * 2 ^ exponent`. -/
structure Binary where
  mantissa : Nat
  exponent : Int
deriving Repr, DecidableEq

namespace Binary

/-- The bits of a mantissa. -/
def precision : Nat := 53

/-- The least exponent. -/
def minExponent : Int := -1074

/-- The greatest exponent. -/
def maxExponent : Int := 971

/-- `num / den` rounded to the nearest natural number, a half to the even neighbour. -/
def roundHalfEven (num den : Nat) : Nat :=
  let q := num / den
  let r := num % den
  if 2 * r < den then q
  else if den < 2 * r then q + 1
  else q + q % 2

/-- The number as a quotient of natural numbers. -/
def ratio (x : Binary) : Nat × Nat :=
  if 0 ≤ x.exponent then (x.mantissa * Nat.pow 2 x.exponent.toNat, 1)
  else (x.mantissa, Nat.pow 2 (-x.exponent).toNat)

/-- `num / den` divided by `2 ^ e`, as a quotient. -/
def scale (num den : Nat) (e : Int) : Nat × Nat :=
  if 0 ≤ e then (num, den * Nat.pow 2 e.toNat) else (num * Nat.pow 2 (-e).toNat, den)

/-- The greatest `k` with `2 ^ k ≤ num / den`, for positive numbers. -/
def floorLog2 (num den : Nat) : Int :=
  let k : Int := (Nat.log2 num : Int) - (Nat.log2 den : Int)
  let (n, d) := scale num den k
  if n < d then k - 1 else k

/-- The nearest number to `num / den`, unless it is too large. -/
def ofRatio? (num den : Nat) : Option Binary :=
  if num = 0 then some ⟨0, minExponent⟩
  else
    let e := max minExponent (floorLog2 num den - (precision - 1))
    let (n, d) := scale num den e
    let m := roundHalfEven n d
    let x : Binary := if m = Nat.pow 2 precision then ⟨Nat.pow 2 (precision - 1), e + 1⟩ else ⟨m, e⟩
    if maxExponent < x.exponent then none else some x

/-- The rounded product. -/
def mul? (x y : Binary) : Option Binary :=
  ofRatio? (x.ratio.1 * y.ratio.1) (x.ratio.2 * y.ratio.2)

/-- The rounded quotient. -/
def div? (x y : Binary) : Option Binary :=
  ofRatio? (x.ratio.1 * y.ratio.2) (x.ratio.2 * y.ratio.1)

/-- The nearest number to a power of ten. -/
def tenPower? (k : Nat) : Option Binary :=
  ofRatio? (Nat.pow 10 k) 1

/-- The largest power of ten that is finite. -/
def maxTenPower : Nat := 308

/-- `value * 10 ^ k`, by at most one step for each 308 places and rounded at each step; `none` if
it grows too large. -/
def shiftTen? : Nat → Binary → Int → Option Binary
  | 0, value, _ => some value
  | steps + 1, value, k =>
    if k.natAbs ≤ maxTenPower then
      (tenPower? k.natAbs).bind fun p => if 0 ≤ k then value.mul? p else value.div? p
    else if value.mantissa = 0 then some value
    else if 0 ≤ k then none
    else
      (tenPower? maxTenPower).bind fun p =>
        (value.div? p).bind fun v => shiftTen? steps v (k + maxTenPower)

/-- `digits * 10 ^ k`, rounded at each step. -/
def ofDecimal? (digits : Nat) (k : Int) : Option Binary :=
  (ofRatio? digits 1).bind fun v => shiftTen? (k.natAbs / maxTenPower + 1) v k

/-- Decimal digits and the power of ten they are multiplied with. -/
structure Decimal where
  digits : Nat
  exponent : Int
deriving Repr, DecidableEq

/-- A decimal as a quotient of natural numbers. -/
def Decimal.ratio (d : Decimal) : Nat × Nat :=
  if 0 ≤ d.exponent then (d.digits * Nat.pow 10 d.exponent.toNat, 1)
  else (d.digits, Nat.pow 10 (-d.exponent).toNat)

/-- The decimal is read as the number. -/
def readsAs (x : Binary) (d : Decimal) : Bool :=
  ofRatio? d.ratio.1 d.ratio.2 == some x

/-- The distance of a decimal from the number, as a numerator over a denominator that all decimals
of one exponent share. -/
def distance (x : Binary) (d : Decimal) : Nat :=
  let (n, m) := x.ratio
  let (p, q) := d.ratio
  (n * q : Int) - (p * m : Int) |>.natAbs

/-- The nearest decimal with the exponent that is read as the number; of two equally near ones the
even one. -/
def nearestAt? (x : Binary) (k : Int) : Option Decimal :=
  let (n, m) := x.ratio
  let below := if 0 ≤ k then n / (m * Nat.pow 10 k.toNat) else n * Nat.pow 10 (-k).toNat / m
  let low : Decimal := ⟨below, k⟩
  let high : Decimal := ⟨below + 1, k⟩
  match x.readsAs low, x.readsAs high with
  | true, true =>
    let a := x.distance low
    let b := x.distance high
    some (if a < b ∨ (a = b ∧ below % 2 = 0) then low else high)
  | true, false => some low
  | false, true => some high
  | false, false => none

/-- The number of decimal digits. -/
def digitCount (n : Nat) : Nat :=
  (decimal n).length

/-- The greatest `k` with `10 ^ k ≤` the number, or one less. -/
def decimalScale (x : Binary) : Int :=
  let (n, m) := x.ratio
  (digitCount n : Int) - (digitCount m : Int) - 1

/-- A decimal without zeros at its end. -/
def Decimal.stripped : Nat → Decimal → Decimal
  | 0, d => d
  | fuel + 1, d =>
    if d.digits ≠ 0 ∧ d.digits % 10 = 0 then stripped fuel ⟨d.digits / 10, d.exponent + 1⟩ else d

/-- The decimal with the fewest digits that is read as the number, the nearest of those. -/
def shortest (x : Binary) : Decimal :=
  if x.mantissa = 0 then ⟨0, 0⟩
  else
    let top := x.decimalScale + 1
    match (List.range 20).findSome? fun (n : Nat) => x.nearestAt? (top - (n : Int)) with
    | some d => d.stripped 20
    | none => ⟨0, 0⟩

/-- A decimal as it is written: with up to 16 places before the point, or up to 4 zeros right behind
it, without an exponent, else with one and its sign; always with a point or an exponent. -/
def Decimal.render (d : Decimal) : List Char :=
  let digits := decimal d.digits
  let length := digits.length
  let point : Int := length + d.exponent
  if 0 ≤ d.exponent ∧ point ≤ 16 then
    digits ++ List.replicate d.exponent.toNat '0' ++ ['.', '0']
  else if 0 < point ∧ point ≤ 16 then
    digits.take point.toNat ++ ['.'] ++ digits.drop point.toNat
  else if -5 < point ∧ point ≤ 0 then
    ['0', '.'] ++ List.replicate (-point).toNat '0' ++ digits
  else
    let e := point - 1
    digits.take 1 ++ (if length = 1 then [] else '.' :: digits.drop 1) ++ ['e'] ++
      [if e < 0 then '-' else '+'] ++ decimal e.natAbs

/-- The number with the fewest digits that name it. -/
def render (x : Binary) : List Char :=
  x.shortest.render

end Binary

end Concordance
