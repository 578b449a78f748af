import Mathlib.Data.List.Basic
import Mathlib.Data.Prod.Basic
import Concordance.Digest

/-!
The order of texts.

Texts are compared character by character, and UTF-8 keeps that order: a character with a smaller
number has the smaller bytes. So the order of texts is the order of their bytes. Main statements:
`upTo_trans`, `upTo_antisymm`, `utf8_lt_iff` and `utf8_lt_iff_lt`.
-/

namespace Concordance.Text

open Digest

theorem upTo_total (a b : List Char) : upTo a b = true ∨ upTo b a = true := by
  induction a generalizing b with
  | nil => exact Or.inl rfl
  | cons c cs ih =>
    cases b with
    | nil => exact Or.inr rfl
    | cons d ds =>
      by_cases h : c = d
      · subst h
        simpa [upTo] using ih ds
      · have hne : c.toNat ≠ d.toNat := fun heq => h (Char.toNat_inj.mp heq)
        simp only [upTo, h, Ne.symm h, ↓reduceIte, decide_eq_true_eq]
        omega

theorem upTo_antisymm {a b : List Char} (hab : upTo a b = true) (hba : upTo b a = true) :
    a = b := by
  induction a generalizing b with
  | nil =>
    cases b with
    | nil => rfl
    | cons d ds => simp [upTo] at hba
  | cons c cs ih =>
    cases b with
    | nil => simp [upTo] at hab
    | cons d ds =>
      by_cases h : c = d
      · subst h
        simp only [upTo, ↓reduceIte] at hab hba
        rw [ih hab hba]
      · simp only [upTo, h, Ne.symm h, ↓reduceIte, decide_eq_true_eq] at hab hba
        omega

theorem upTo_trans {a b c : List Char} (hab : upTo a b = true) (hbc : upTo b c = true) :
    upTo a c = true := by
  induction a generalizing b c with
  | nil => rfl
  | cons x xs ih =>
    cases b with
    | nil => simp [upTo] at hab
    | cons y ys =>
      cases c with
      | nil => simp [upTo] at hbc
      | cons z zs =>
        by_cases hxy : x = y
        · subst hxy
          by_cases hxz : x = z
          · subst hxz
            simp only [upTo, ↓reduceIte] at hab hbc ⊢
            exact ih hab hbc
          · simp only [upTo, hxz, ↓reduceIte] at hbc ⊢
            exact hbc
        · by_cases hyz : y = z
          · subst hyz
            simp only [upTo, hxy, ↓reduceIte] at hab ⊢
            exact hab
          · simp only [upTo, hxy, hyz, ↓reduceIte, decide_eq_true_eq] at hab hbc
            have hxz : x ≠ z := fun heq => by subst heq; omega
            simp only [upTo, hxz, ↓reduceIte, decide_eq_true_eq]
            omega

section Lexicographic

variable {α β : Type} {le : α → α → Bool} {key : α → String × β} {place : β → β → Prop}

/-- An order by a file and, within it, by a place is transitive if the order of the places is. -/
theorem trans_of_lex [IsTrans β place]
    (hlex : ∀ a b, le a b = true ↔ Prod.Lex (· < ·) place (key a) (key b)) (a b c : α)
    (hab : le a b = true) (hbc : le b c = true) : le a c = true :=
  (hlex a c).mpr (((hlex a b).mp hab).trans ((hlex b c).mp hbc))

/-- An order by a file and, within it, by a place is total if the order of the places is. -/
theorem total_of_lex [Std.Total place]
    (hlex : ∀ a b, le a b = true ↔ Prod.Lex (· < ·) place (key a) (key b)) (a b : α) :
    (le a b || le b a) = true := by
  rw [Bool.or_eq_true, hlex, hlex]
  exact total_of (Prod.Lex (· < ·) place) (key a) (key b)

end Lexicographic

section Bytes

theorem cons_ofNat_lt_cons_iff {m n : Nat} (hm : m < 256) (hn : n < 256) (xs ys : List UInt8) :
    UInt8.ofNat m :: xs < UInt8.ofNat n :: ys ↔ m < n ∨ m = n ∧ xs < ys := by
  rw [List.cons_lt_cons_iff, UInt8.lt_iff_toNat_lt, ← UInt8.toNat_inj, UInt8.toNat_ofNat',
    UInt8.toNat_ofNat', Nat.mod_eq_of_lt hm, Nat.mod_eq_of_lt hn]

/-- The bytes of a character with a smaller number come first, whatever follows. -/
theorem utf8EncodeChar_append_lt {c d : Char} (h : c.toNat < d.toNat) (xs ys : List UInt8) :
    String.utf8EncodeChar c ++ xs < String.utf8EncodeChar d ++ ys := by
  have hmax : d.val.toNat < 0x110000 := by
    rcases d.valid with h | h <;> omega
  change c.val.toNat < d.val.toNat at h
  unfold String.utf8EncodeChar
  generalize c.val.toNat = m at *
  generalize d.val.toNat = n at *
  -- the highest group of six bits in which the numbers differ
  have hdigit : m / 262144 < n / 262144 ∨ m / 262144 = n / 262144 ∧ m / 4096 < n / 4096 ∨
      m / 4096 = n / 4096 ∧ m / 64 < n / 64 ∨ m / 64 = n / 64 := by
    omega
  dsimp only
  split_ifs <;>
    simp (disch := omega) only [List.cons_append, List.nil_append, cons_ofNat_lt_cons_iff] <;>
    rcases hdigit with hdigit | hdigit | hdigit | hdigit <;> omega

theorem append_lt_append_iff (pre xs ys : List UInt8) : pre ++ xs < pre ++ ys ↔ xs < ys := by
  induction pre with
  | nil => rfl
  | cons b pre ih => simp [ih]

/-- The order of texts is the order of their bytes. -/
theorem utf8_lt_iff (a b : List Char) : utf8 a < utf8 b ↔ upTo a b = true ∧ a ≠ b := by
  have hcons : ∀ c cs, utf8 (c :: cs) = String.utf8EncodeChar c ++ utf8 cs := fun _ _ => rfl
  induction a generalizing b with
  | nil =>
    cases b with
    | nil => simp [utf8]
    | cons d ds =>
      obtain ⟨x, xs, hbytes⟩ := List.exists_cons_of_ne_nil (String.utf8EncodeChar_ne_nil (c := d))
      simp [hbytes, upTo, utf8]
  | cons c cs ih =>
    cases b with
    | nil => simp [utf8, upTo]
    | cons d ds =>
      rw [hcons, hcons]
      by_cases hcd : c = d
      · subst hcd
        refine (append_lt_append_iff _ _ _).trans ((ih ds).trans ?_)
        simp [upTo]
      · have hne : c.toNat ≠ d.toNat := fun heq => hcd (Char.toNat_inj.mp heq)
        simp only [upTo, hcd, ↓reduceIte, decide_eq_true_eq, ne_eq, List.cons.injEq, false_and,
          not_false_eq_true, and_true]
        rcases Nat.lt_or_gt_of_ne hne with hlt | hlt
        · exact iff_of_true (utf8EncodeChar_append_lt hlt _ _) hlt
        · exact iff_of_false (List.lt_asymm (utf8EncodeChar_append_lt hlt _ _)) (by omega)

/-- The order of bytes is the order of characters. -/
theorem utf8_lt_iff_lt (a b : List Char) : utf8 a < utf8 b ↔ a < b := by
  rw [utf8_lt_iff]
  induction a generalizing b with
  | nil =>
    cases b with
    | nil => simp
    | cons d ds => simp [upTo]
  | cons c cs ih =>
    cases b with
    | nil => simp [upTo]
    | cons d ds =>
      have hlt : c < d ↔ c.toNat < d.toNat := UInt32.lt_iff_toNat_lt
      rw [List.cons_lt_cons_iff, ← ih ds, hlt]
      by_cases hcd : c = d
      · subst hcd
        simp [upTo]
      · simp [upTo, hcd]

end Bytes

end Concordance.Text
