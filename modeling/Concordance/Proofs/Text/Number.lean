import Mathlib.Data.Nat.Digits.Defs
import Concordance.Text.Number

/-!
Decimal numerals that are read back.

Main statements: `readNumber?_decimal` (a 64-bit number is read from its digits) and
`le_of_readNumber?` (nothing else is).
-/

namespace Concordance.Text

variable {n : Nat}

theorem le_ofDigitChars (ds : List Char) (value : Nat) : value ≤ Nat.ofDigitChars 10 ds value := by
  induction ds generalizing value with
  | nil => exact Nat.le_refl value
  | cons d ds ih =>
    rw [Nat.ofDigitChars, List.foldl_cons]
    exact Nat.le_trans (by omega) (ih _)

theorem isDigit_of_mem_decimal {d : Char} (h : d ∈ decimal n) : d.isDigit = true :=
  Nat.isDigit_of_mem_toDigits (by decide) (by decide) h

theorem exists_decimal_cons (n : Nat) : ∃ c cs, decimal n = c :: cs ∧ c.isDigit = true := by
  obtain ⟨c, cs, hcs⟩ := List.exists_cons_of_ne_nil (Nat.toDigits_ne_nil (n := n) (b := 10))
  exact ⟨c, cs, hcs, isDigit_of_mem_decimal (hcs ▸ List.mem_cons_self)⟩

/-- Digits are read to their end as long as the number stays in bounds. -/
theorem readDigits_eq {ds : List Char} (hds : ∀ d ∈ ds, d.isDigit = true)
    (hmax : Nat.ofDigitChars 10 ds n ≤ maxNumber) :
    readDigits n ds = .ok (Nat.ofDigitChars 10 ds n) := by
  induction ds generalizing n with
  | nil => rfl
  | cons d ds ih =>
    obtain ⟨hd, hds⟩ := List.forall_mem_cons.mp hds
    have hstep : Nat.ofDigitChars 10 (d :: ds) n =
        Nat.ofDigitChars 10 ds (10 * n + (d.toNat - '0'.toNat)) := by
      rw [Nat.ofDigitChars, List.foldl_cons]
      rfl
    have hbounds : '0' ≤ d ∧ d ≤ '9' := by
      simpa [Char.isDigit, Char.le_def] using hd
    rw [hstep] at hmax ⊢
    have hle : 10 * n + (d.toNat - '0'.toNat) ≤ maxNumber :=
      Nat.le_trans (le_ofDigitChars ds _) hmax
    rw [readDigits, if_pos hbounds]
    dsimp only
    rw [if_pos hle, ih hds hmax]

/-- A 64-bit number is read from its digits. -/
theorem readNumber?_decimal (hn : n ≤ maxNumber) : readNumber? (decimal n) = some n := by
  have hvalue : Nat.ofDigitChars 10 (decimal n) 0 = n :=
    Nat.ofDigitChars_toDigits (by decide) (by decide)
  have hread : readDigits 0 (decimal n) = .ok n := by
    rw [readDigits_eq (fun d hd => isDigit_of_mem_decimal hd) (by rwa [hvalue]), hvalue]
  obtain ⟨c, cs, hcs, hdigit⟩ := exists_decimal_cons n
  have hplus : c ≠ '+' := by
    rintro rfl
    exact absurd hdigit (by decide)
  have hunsigned : readNumber (c :: cs) = readDigits 0 (c :: cs) := by
    simp [readNumber, hplus]
  rw [readNumber?, hcs, hunsigned, ← hcs, hread]
  rfl

theorem le_of_readDigits {m : Nat} {cs : List Char} (hn : n ≤ maxNumber)
    (h : readDigits n cs = .ok m) : m ≤ maxNumber := by
  induction cs generalizing n with
  | nil => exact Except.ok.inj h ▸ hn
  | cons c cs ih =>
    rw [readDigits] at h
    dsimp only at h
    split at h
    · split at h
      · next hle => exact ih hle h
      · cases h
    · cases h

/-- Only a 64-bit number is read. -/
theorem le_of_readNumber? {cs : List Char} (h : readNumber? cs = some n) : n ≤ maxNumber := by
  have hread : readNumber cs = .ok n := by
    rw [readNumber?] at h
    cases hcs : readNumber cs with
    | error e =>
      rw [hcs] at h
      cases h
    | ok m =>
      rw [hcs] at h
      exact congrArg Except.ok (Option.some.inj h)
  unfold readNumber at hread
  split at hread
  · cases hread
  · cases hread
  · exact le_of_readDigits (Nat.zero_le _) hread
  · exact le_of_readDigits (Nat.zero_le _) hread

end Concordance.Text
