import Mathlib.Data.List.TakeWhile
import Concordance.Json.Reader
import Concordance.Proofs.Text.Number

/-!
The pieces of a written JSON text are read back: white space, strings and numbers.

Main statements: `stringTail_string` (a string is read up to its closing quote) and
`numberTail_decimal` (the digits of a 64-bit number are read as the number). What follows a value is
left as it is; it must not go on with the value, as `Bounded` says.
-/

namespace Concordance.Json

open Text

section Space

/-- White space only. -/
def AllSpace (text : List Char) : Prop :=
  ∀ c ∈ text, isSpace c = true

theorem allSpace_nil : AllSpace [] := by
  simp [AllSpace]

theorem allSpace_newLine (depth : Nat) : AllSpace (newLine depth) := by
  intro c hc
  rcases List.mem_cons.mp hc with rfl | hc
  · rfl
  · rw [List.eq_of_mem_replicate hc]
    rfl

/-- White space is skipped up to the first other character. -/
theorem skipSpace_append {space : List Char} {c : Char} (rest : List Char) (hspace : AllSpace space)
    (hc : isSpace c = false) : skipSpace (space ++ c :: rest) = c :: rest := by
  rw [skipSpace, List.dropWhile_append_of_pos hspace]
  exact List.dropWhile_cons_of_neg (by simp [hc])

theorem atValue_append {α : Type} (read : Char → List Char → Except Failure (α × List Char))
    {space rest : List Char} {c : Char} (hspace : AllSpace space) (hc : isSpace c = false) :
    atValue read (space ++ c :: rest) = read c rest := by
  rw [atValue, skipSpace_append rest hspace hc]

end Space

section Strings

theorem hexDigit?_digitChar {d : Nat} (h : d < 16) : hexDigit? (Nat.digitChar d) = some d := by
  have hall : ∀ d < 16, hexDigit? (Nat.digitChar d) = some d := by decide
  exact hall d h

/-- The four digits behind `\u` of a control character are read as its number. -/
theorem codeEscape_hexPair {n : Nat} (h : n < 0x20) (rest : List Char) :
    codeEscape ('0' :: '0' :: (hexPair n ++ rest)) = .ok (Char.ofNat n, rest) := by
  have hzero : hexDigit? '0' = some 0 := by decide
  have hhigh := hexDigit?_digitChar (d := n / 16) (by omega)
  have hlow := hexDigit?_digitChar (d := n % 16) (by omega)
  have hfour : fourHex? ('0' :: '0' :: (hexPair n ++ rest)) = some (n, rest) := by
    simp only [hexPair, List.cons_append, List.nil_append, fourHex?, hzero, hhigh, hlow,
      Option.some.injEq, Prod.mk.injEq, and_true]
    omega
  have hlong : ¬ byteLength ('0' :: '0' :: (hexPair n ++ rest)) < 4 := by
    have hone := (Nat.digitChar (n / 16)).utf8Size_pos
    have hother := (Nat.digitChar (n % 16)).utf8Size_pos
    have hsize : '0'.utf8Size = 1 := by decide
    simp only [hexPair, List.cons_append, List.nil_append, byteLength_cons, hsize]
    omega
  have hplain : isLowSurrogate n = false ∧ isHighSurrogate n = false := by
    simp only [isLowSurrogate, isHighSurrogate, Bool.and_eq_false_iff, decide_eq_false_iff_not]
    omega
  rw [codeEscape, codeUnit, if_neg hlong, hfour]
  simp [hplain]

/-- A character is read back from the way it is written inside a string. -/
theorem stringBody_escapedChar (c : Char) (fuel : Nat) {rest more : List Char} {ds : List Char}
    (h : stringBody fuel rest = .ok (ds, more)) :
    stringBody (fuel + 1) (escapedChar c ++ rest) = .ok (c :: ds, more) := by
  have hescape : ∀ {a d : Char}, a ≠ 'u' → simpleEscape? a = some d →
      stringBody (fuel + 1) ('\\' :: a :: rest) = .ok (d :: ds, more) := by
    intro a d ha hd
    simp [stringBody, escape, ha, hd, h]
  unfold escapedChar
  split
  · next hc => rcases hc with rfl | rfl <;> exact hescape (by decide) rfl
  split
  · next hc => subst hc; exact hescape (by decide) rfl
  split
  · next hc => subst hc; exact hescape (by decide) rfl
  split
  · next hc => subst hc; exact hescape (by decide) rfl
  split
  · next hc => subst hc; exact hescape (by decide) rfl
  split
  · next hc => subst hc; exact hescape (by decide) rfl
  split
  · next hc =>
    have hcode := codeEscape_hexPair hc rest
    rw [Char.ofNat_toNat] at hcode
    simp [stringBody, escape, hcode, h]
  · next hquote _ _ _ _ _ hcontrol =>
    rw [not_or] at hquote
    simp [stringBody, hquote.1, hquote.2, hcontrol, h]

theorem stringBody_flatMap (text : List Char) (rest : List Char) {fuel : Nat}
    (hfuel : text.length < fuel) :
    stringBody fuel (text.flatMap escapedChar ++ '"' :: rest) = .ok (text, rest) := by
  induction text generalizing fuel with
  | nil =>
    obtain ⟨fuel, rfl⟩ := Nat.exists_eq_succ_of_ne_zero (Nat.ne_of_gt hfuel)
    simp [stringBody]
  | cons c text ih =>
    obtain ⟨fuel, rfl⟩ := Nat.exists_eq_succ_of_ne_zero (Nat.ne_zero_of_lt hfuel)
    rw [List.flatMap_cons, List.append_assoc]
    exact stringBody_escapedChar c fuel (ih (by simpa using hfuel))

theorem length_le_flatMap_escapedChar (text : List Char) :
    text.length ≤ (text.flatMap escapedChar).length := by
  have hpos : ∀ c : Char, 1 ≤ (escapedChar c).length := by
    intro c
    unfold escapedChar
    repeat' split
    all_goals simp
  induction text with
  | nil => exact Nat.le_refl 0
  | cons c text ih =>
    rw [List.flatMap_cons, List.length_append, List.length_cons]
    have := hpos c
    omega

/-- A string is read up to its closing quote. -/
theorem stringTail_string (text : List Char) (rest : List Char) :
    stringTail (text.flatMap escapedChar ++ '"' :: rest) = .ok (text, rest) := by
  have hlength := length_le_flatMap_escapedChar text
  refine stringBody_flatMap text rest ?_
  rw [List.length_append, List.length_cons]
  omega

/-- A written string starts with a quote, and the rest of it is read as the text. -/
theorem exists_string (text : String) (rest : List Char) :
    ∃ cs, string text ++ rest = '"' :: cs ∧ stringTail cs = .ok (text.toList, rest) :=
  ⟨text.toList.flatMap escapedChar ++ '"' :: rest, by simp [string], stringTail_string _ _⟩

end Strings

section Numbers

/-- The text does not go on with a number: it is empty, or a comma or a line feed comes first. -/
def Bounded (rest : List Char) : Prop :=
  ∀ c, rest.head? = some c → c = ',' ∨ c = '\n'

theorem bounded_newLine (depth : Nat) (rest : List Char) : Bounded (newLine depth ++ rest) := by
  intro c hc
  obtain rfl : '\n' = c := by simpa [newLine] using hc
  exact Or.inr rfl

theorem bounded_comma (rest : List Char) : Bounded (',' :: rest) := by
  intro c hc
  exact Or.inl (by simpa using hc.symm)

theorem Bounded.numberEnd_eq {rest : List Char} (h : Bounded rest) (n : Nat) :
    numberEnd false n rest = .ok (.natural n, rest) := by
  cases rest with
  | nil => simp [numberEnd]
  | cons c cs => rcases h c rfl with rfl | rfl <;> simp [numberEnd]

theorem Bounded.not_isDigit {c : Char} {cs : List Char} (h : Bounded (c :: cs)) :
    c.isDigit = false := by
  rcases h c rfl with rfl | rfl <;> decide

/-- Digits are read to their end as long as the number stays in bounds. -/
theorem takeDigits_append {ds rest : List Char} (hds : ∀ d ∈ ds, d.isDigit = true)
    (hrest : Bounded rest) (value count : Nat)
    (hmax : Nat.ofDigitChars 10 ds value ≤ maxNumber) :
    takeDigits value count (ds ++ rest) =
      (Nat.ofDigitChars 10 ds value, count + ds.length, rest) := by
  induction ds generalizing value count with
  | nil =>
    cases rest with
    | nil => rfl
    | cons c cs => simp [takeDigits, hrest.not_isDigit, Nat.ofDigitChars]
  | cons d ds ih =>
    have hstep : Nat.ofDigitChars 10 (d :: ds) value =
        Nat.ofDigitChars 10 ds (value * 10 + digitValue d) := by
      rw [Nat.ofDigitChars, List.foldl_cons, Nat.mul_comm 10]
      rfl
    rw [hstep] at hmax ⊢
    have hd := hds d List.mem_cons_self
    have hle : value * 10 + digitValue d ≤ maxNumber := Nat.le_trans (le_ofDigitChars ds _) hmax
    rw [List.cons_append, takeDigits, if_pos ⟨hd, hle⟩,
      ih (fun e he => hds e (List.mem_cons_of_mem d he)) _ (count + 1) hmax, List.length_cons]
    simp only [Prod.mk.injEq, true_and, and_true]
    omega

theorem ne_of_isDigit {c d : Char} (hc : c.isDigit = true) (hd : d.isDigit = false) : c ≠ d := by
  rintro rfl
  exact absurd (hc.symm.trans hd) (by decide)

theorem isSpace_of_isDigit {c : Char} (h : c.isDigit = true) : isSpace c = false := by
  have hne : ∀ {d : Char}, d.isDigit = false → c ≠ d := ne_of_isDigit h
  simp only [isSpace, Bool.or_eq_false_iff, beq_eq_false_iff_ne]
  exact ⟨⟨⟨hne (by decide), hne (by decide)⟩, hne (by decide)⟩, hne (by decide)⟩

theorem head?_decimal_ne_zero {n : Nat} (h : n ≠ 0) : (decimal n).head? ≠ some '0' := by
  induction n using Nat.strong_induction_on with
  | h n ih =>
    rw [decimal, Nat.toDigits_eq_if (by decide)]
    split
    · next hlt =>
      have hall : ∀ d < 10, d ≠ 0 → [Nat.digitChar d].head? ≠ some '0' := by decide
      exact hall n hlt h
    · next hle =>
      have hhead := ih (n / 10) (by omega) (by omega)
      obtain ⟨c, cs, hcs, -⟩ := exists_decimal_cons (n / 10)
      rw [hcs] at hhead
      rw [decimal] at hcs
      rwa [hcs]

/-- The digits of a 64-bit number are read as the number. -/
theorem numberTail_decimal {n : Nat} (hn : n ≤ maxNumber) {rest : List Char} (hrest : Bounded rest) :
    numberTail false (decimal n ++ rest) = .ok (.natural n, rest) := by
  by_cases hzero : n = 0
  · subst hzero
    have hdigits : decimal 0 = ['0'] := by decide
    rw [hdigits]
    cases rest with
    | nil => simp [numberTail, numberEnd]
    | cons c cs => simpa [numberTail, hrest.not_isDigit] using hrest.numberEnd_eq 0
  · have hvalue : Nat.ofDigitChars 10 (decimal n) 0 = n :=
      Nat.ofDigitChars_toDigits (by decide) (by decide)
    have hdigits : ∀ d ∈ decimal n, d.isDigit = true := fun d hd => isDigit_of_mem_decimal hd
    have hhead := head?_decimal_ne_zero hzero
    obtain ⟨c, cs, hcs, -⟩ := exists_decimal_cons n
    rw [hcs] at hvalue hdigits hhead ⊢
    have hc : c ≠ '0' := by simpa using hhead
    have hstep : Nat.ofDigitChars 10 cs (digitValue c) = n := by
      rw [← hvalue, Nat.ofDigitChars, Nat.ofDigitChars, List.foldl_cons, Nat.mul_zero, Nat.zero_add]
      rfl
    have htake := takeDigits_append (fun d hd => hdigits d (List.mem_cons_of_mem c hd)) hrest
      (digitValue c) 1 (by rw [hstep]; exact hn)
    rw [hstep] at htake
    rw [List.cons_append, numberTail.eq_def]
    simp only [if_neg hc, if_pos (hdigits c List.mem_cons_self), htake]
    cases rest with
    | nil => exact hrest.numberEnd_eq n
    | cons d ds => simpa [hrest.not_isDigit] using hrest.numberEnd_eq n

end Numbers

end Concordance.Json
