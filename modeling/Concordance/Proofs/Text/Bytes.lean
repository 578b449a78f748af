import Concordance.Proofs.Digest
import Concordance.Proofs.Text.Cut

/-!
The bytes of a text.

A character of ASCII is one byte, and no byte of another character is one of ASCII. The bytes of a
character behind its first all continue it, so a place in the bytes lies between two characters exactly
if the byte there continues none (`isBoundary_utf8`).
-/

namespace Concordance.Text

open Digest

/-- The byte is one of a character, and not its first. -/
def continues (b : UInt8) : Bool :=
  0x80 ≤ b.toNat && b.toNat < 0xC0

/-- At place `n` of the bytes no character goes on. -/
def isBoundary (bytes : List UInt8) (n : Nat) : Bool :=
  match bytes[n]? with
  | some b => !continues b
  | none => n == bytes.length

section Characters

variable {c : Char}

theorem utf8EncodeChar_of_ascii (h : c.toNat < 0x80) : String.utf8EncodeChar c = [c.toUInt8] :=
  String.utf8EncodeChar_eq_singleton
    (Char.utf8Size_eq_one_iff.mpr (UInt32.le_iff_toNat_le.mpr (Nat.le_of_lt_succ h)))

theorem utf8Size_of_ascii (h : c.toNat < 0x80) : c.utf8Size = 1 := by
  rw [← String.length_utf8EncodeChar, utf8EncodeChar_of_ascii h, List.length_singleton]

theorem toNat_toUInt8 (h : c.toNat < 0x80) : c.toUInt8.toNat = c.toNat :=
  Nat.mod_eq_of_lt (Nat.lt_trans h (by decide))

/-- A character of ASCII is determined by its byte. -/
theorem toUInt8_eq_iff {d : Char} (hc : c.toNat < 0x80) (hd : d.toNat < 0x80) :
    c.toUInt8 = d.toUInt8 ↔ c = d := by
  rw [← UInt8.toNat_inj, toNat_toUInt8 hc, toNat_toUInt8 hd, Char.toNat_inj]

theorem toUInt8_ne {d : Char} (hc : c.toNat < 0x80) (hd : d.toNat < 0x80) (h : c ≠ d) :
    c.toUInt8 ≠ d.toUInt8 :=
  fun heq => h ((toUInt8_eq_iff hc hd).mp heq)

theorem ne_of_high {d : Char} (hc : 0x80 ≤ c.toNat) (hd : d.toNat < 0x80) : c ≠ d := by
  rintro rfl
  exact absurd hd (Nat.not_lt_of_le hc)

/-- A byte of a character outside ASCII is none of one in it. -/
theorem ne_toUInt8 {b : UInt8} (hb : 0x80 ≤ b.toNat) (hc : c.toNat < 0x80) :
    b ≠ c.toUInt8 := by
  rintro rfl
  rw [toNat_toUInt8 hc] at hb
  exact absurd hc (Nat.not_lt_of_le hb)

theorem le_toNat_of_continues {b : UInt8} (h : continues b = true) : 0x80 ≤ b.toNat := by
  simp only [continues, Bool.and_eq_true, decide_eq_true_eq] at h
  exact h.1

/-- A character starts with a byte that continues none, and all others continue it. -/
theorem exists_utf8EncodeChar_eq_cons (c : Char) :
    ∃ first rest, String.utf8EncodeChar c = first :: rest ∧ continues first = false ∧
      ∀ b ∈ rest, continues b = true := by
  have hmax : c.val.toNat < 0x110000 := by
    rcases c.valid with h | h <;> omega
  have htail : ∀ n, continues (UInt8.ofNat (n % 64 + 128)) = true := by
    intro n
    rw [continues, UInt8.toNat_ofNat', Nat.mod_eq_of_lt (by omega), Bool.and_eq_true,
      decide_eq_true_eq, decide_eq_true_eq]
    omega
  have hfirst : ∀ n, n < 128 ∨ 192 ≤ n ∧ n < 256 → continues (UInt8.ofNat n) = false := by
    intro n hn
    rw [continues, UInt8.toNat_ofNat', Nat.mod_eq_of_lt (by omega), Bool.and_eq_false_iff,
      decide_eq_false_iff_not, decide_eq_false_iff_not]
    omega
  unfold String.utf8EncodeChar
  generalize c.val.toNat = n at hmax
  dsimp only
  split_ifs
  all_goals refine ⟨_, _, rfl, hfirst _ (by omega), ?_⟩
  · exact List.forall_mem_nil _
  all_goals
    simp only [List.forall_mem_cons, htail, true_and, List.not_mem_nil, IsEmpty.forall_iff,
      implies_true]

/-- The bytes of a character outside ASCII are no bytes of characters in it. -/
theorem le_toNat_of_mem_utf8EncodeChar (h : 0x80 ≤ c.toNat) {b : UInt8}
    (hb : b ∈ String.utf8EncodeChar c) : 0x80 ≤ b.toNat := by
  change 0x80 ≤ c.val.toNat at h
  have hmax : c.val.toNat < 0x110000 := by
    rcases c.valid with h | h <;> omega
  have hbyte : ∀ n, 128 ≤ n → n < 256 → 0x80 ≤ (UInt8.ofNat n).toNat := by
    intro n hlow hhigh
    rwa [UInt8.toNat_ofNat', Nat.mod_eq_of_lt hhigh]
  unfold String.utf8EncodeChar at hb
  generalize c.val.toNat = n at *
  dsimp only at hb
  split_ifs at hb
  · omega
  all_goals
    simp only [List.mem_cons, List.not_mem_nil, or_false] at hb
    rcases hb with rfl | rfl | rfl | rfl <;> exact hbyte _ (by omega) (by omega)

/-- A character is one byte of ASCII, or none of its bytes is one. -/
theorem ascii_or_high (c : Char) :
    c.toNat < 0x80 ∧ String.utf8EncodeChar c = [c.toUInt8] ∨
      0x80 ≤ c.toNat ∧ ∀ b ∈ String.utf8EncodeChar c, 0x80 ≤ b.toNat := by
  rcases Nat.lt_or_ge c.toNat 0x80 with hc | hc
  · exact Or.inl ⟨hc, utf8EncodeChar_of_ascii hc⟩
  · exact Or.inr ⟨hc, fun _ => le_toNat_of_mem_utf8EncodeChar hc⟩

end Characters

section Texts

variable {front back : List Char} {c : Char}

theorem utf8_nil : utf8 [] = [] := rfl

theorem utf8_cons (c : Char) (cs : List Char) :
    utf8 (c :: cs) = String.utf8EncodeChar c ++ utf8 cs := rfl

theorem utf8_cons_of_ascii (h : c.toNat < 0x80) (cs : List Char) :
    utf8 (c :: cs) = c.toUInt8 :: utf8 cs := by
  rw [utf8_cons, utf8EncodeChar_of_ascii h]
  rfl

theorem utf8_of_ascii {text : List Char} (h : ∀ c ∈ text, c.toNat < 0x80) :
    utf8 text = text.map Char.toUInt8 := by
  induction text with
  | nil => rfl
  | cons c cs ih =>
    obtain ⟨hc, hcs⟩ := List.forall_mem_cons.mp h
    rw [utf8_cons_of_ascii hc, ih hcs, List.map_cons]

theorem length_utf8 (text : List Char) : (utf8 text).length = byteLength text := by
  induction text with
  | nil => rfl
  | cons c cs ih =>
    rw [utf8_cons, List.length_append, String.length_utf8EncodeChar, ih, byteLength_cons]

theorem drop_utf8 (front back : List Char) :
    (utf8 (front ++ back)).drop (byteLength front) = utf8 back := by
  rw [utf8_append, ← length_utf8, List.drop_left]

/-- What is left of the bytes from within a character on. -/
theorem drop_utf8_char {k : Nat} (hk : k ≤ c.utf8Size) (front back : List Char) :
    (utf8 (front ++ c :: back)).drop (byteLength front + k) =
      (String.utf8EncodeChar c).drop k ++ utf8 back := by
  rw [← List.drop_drop, drop_utf8, utf8_cons,
    List.drop_append_of_le_length (by rwa [String.length_utf8EncodeChar])]

theorem getElem?_utf8_char {k : Nat} (hk : k < c.utf8Size) (front back : List Char) :
    (utf8 (front ++ c :: back))[byteLength front + k]? = (String.utf8EncodeChar c)[k]? := by
  have hlength : k < (String.utf8EncodeChar c).length := by rwa [String.length_utf8EncodeChar]
  rw [← List.head?_drop, drop_utf8_char hk.le, List.head?_append_of_ne_nil, List.head?_drop]
  rwa [Ne, List.drop_eq_nil_iff, Nat.not_le]

/-- No character goes on between two characters, and nowhere else. -/
theorem isBoundary_utf8 (text : List Char) (n : Nat) :
    isBoundary (utf8 text) n = onBoundary n text := by
  rw [Bool.eq_iff_iff, onBoundary_iff]
  unfold isBoundary
  rcases Nat.lt_or_ge n (byteLength text) with hlt | hge
  · obtain ⟨front, c, back, rfl, hle, hlt⟩ := exists_char_of_lt hlt
    obtain ⟨k, rfl⟩ := Nat.exists_eq_add_of_le hle
    obtain ⟨first, rest, hbytes, hfirst, hrest⟩ := exists_utf8EncodeChar_eq_cons c
    have hsize := congrArg List.length hbytes
    rw [String.length_utf8EncodeChar, List.length_cons] at hsize
    rw [getElem?_utf8_char (by omega), hbytes]
    cases k with
    | zero =>
      rw [List.getElem?_cons_zero]
      exact iff_of_true (by simp [hfirst]) ⟨front, c :: back, rfl, rfl⟩
    | succ k =>
      have hk : k < rest.length := by omega
      rw [List.getElem?_cons_succ, List.getElem?_eq_getElem hk]
      refine iff_of_false (by simp [hrest _ (List.getElem_mem hk)]) ?_
      rintro ⟨pre, post, htext, hpre⟩
      have := add_utf8Size_le_of_lt htext (by omega)
      omega
  · rw [List.getElem?_eq_none (by rwa [length_utf8]), beq_iff_eq, length_utf8]
    constructor
    · rintro rfl
      exact ⟨text, [], (List.append_nil text).symm, rfl⟩
    · rintro ⟨pre, post, rfl, rfl⟩
      rw [byteLength_append] at hge ⊢
      omega

end Texts

end Concordance.Text
