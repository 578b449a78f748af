import Mathlib.Data.List.Basic
import Concordance.Symbol

/-!
What the bytes behind an id determine: the place, and the path and the name put together with a colon
between them. Where the path ends and the name starts they do not tell.

Main statement: `Symbol.idBytes_eq_iff`.
-/

namespace Concordance

namespace Digest

theorem utf8_append (a b : List Char) : utf8 (a ++ b) = utf8 a ++ utf8 b :=
  List.flatMap_append

/-- A text is determined by its bytes. -/
theorem utf8_injective {a b : List Char} (h : utf8 a = utf8 b) : a = b := by
  have hdecode : a.utf8Encode.utf8Decode? = b.utf8Encode.utf8Decode? :=
    congrArg (fun bytes : List UInt8 => bytes.toByteArray.utf8Decode?) h
  rw [List.utf8Decode?_utf8Encode, List.utf8Decode?_utf8Encode] at hdecode
  exact congrArg Array.toList (Option.some.inj hdecode)

theorem length_bigEndian (count n : Nat) : (bigEndian count n).length = count := by
  simp [bigEndian]

theorem bigEndian_succ (count n : Nat) :
    bigEndian (count + 1) n = UInt8.ofNat (n >>> (8 * count)) :: bigEndian count n := by
  simp [bigEndian, List.range_succ]

/-- The low bytes determine a number up to multiples of what they can hold. -/
theorem mod_eq_of_bigEndian_eq {count m n : Nat} (h : bigEndian count m = bigEndian count n) :
    m % Nat.pow 256 count = n % Nat.pow 256 count := by
  induction count with
  | zero => exact (Nat.mod_one m).trans (Nat.mod_one n).symm
  | succ count ih =>
    rw [bigEndian_succ, bigEndian_succ, List.cons.injEq] at h
    have hshift : ∀ k : Nat, k >>> (8 * count) = k / Nat.pow 256 count := by
      intro k
      rw [Nat.shiftRight_eq_div_pow, Nat.pow_mul]
      rfl
    have hbyte : m / Nat.pow 256 count % 256 = n / Nat.pow 256 count % 256 := by
      have hhead := congrArg UInt8.toNat h.1
      rwa [UInt8.toNat_ofNat', UInt8.toNat_ofNat', hshift, hshift] at hhead
    show m % (Nat.pow 256 count * 256) = n % (Nat.pow 256 count * 256)
    rw [Nat.mod_mul, Nat.mod_mul, ih h.2, hbyte]

theorem bigEndian_injOn {m n : Nat} (hm : m < UInt64.size) (hn : n < UInt64.size)
    (h : bigEndian 8 m = bigEndian 8 n) : m = n := by
  have hmod : m % UInt64.size = n % UInt64.size := mod_eq_of_bigEndian_eq h
  rwa [Nat.mod_eq_of_lt hm, Nat.mod_eq_of_lt hn] at hmod

end Digest

/-- Both numbers of the place fit into eight bytes. -/
structure Position.Fits (position : Position) : Prop where
  line : position.line < UInt64.size
  character : position.character < UInt64.size

open Digest

/-- The bytes of an id: one text, and the place behind it in a fixed number of bytes. -/
theorem Symbol.idBytes_eq (path name : String) (position : Position) :
    idBytes path name position =
      utf8 (path ++ ":" ++ name).toList ++ (utf8 [':'] ++ bigEndian 8 position.line) ++
        (utf8 [':'] ++ bigEndian 8 position.character) := by
  have htext : (path ++ ":" ++ name).toList = path.toList ++ [':'] ++ name.toList := by simp
  rw [htext, utf8_append, utf8_append, ← List.append_assoc, ← List.append_assoc]
  rfl

/-- The bytes of an id determine the place, and the path, a colon and the name as one text. -/
theorem Symbol.idBytes_eq_iff {path path' name name' : String} {position position' : Position}
    (hfits : position.Fits) (hfits' : position'.Fits) :
    idBytes path name position = idBytes path' name' position' ↔
      path ++ ":" ++ name = path' ++ ":" ++ name' ∧ position = position' := by
  rw [idBytes_eq, idBytes_eq]
  constructor
  · intro h
    have hlength : ∀ m n : Nat,
        (utf8 [':'] ++ bigEndian 8 m).length = (utf8 [':'] ++ bigEndian 8 n).length := by
      intro m n
      rw [List.length_append, List.length_append, length_bigEndian, length_bigEndian]
    obtain ⟨h, hcharacter⟩ := List.append_inj' h (hlength ..)
    obtain ⟨h, hline⟩ := List.append_inj' h (hlength ..)
    have hl := bigEndian_injOn hfits.line hfits'.line (List.append_cancel_left hline)
    have hc := bigEndian_injOn hfits.character hfits'.character (List.append_cancel_left hcharacter)
    refine ⟨String.toList_inj.mp (utf8_injective h), ?_⟩
    cases position
    cases position'
    rw [Position.mk.injEq]
    exact ⟨hl, hc⟩
  · rintro ⟨htext, rfl⟩
    rw [htext]

end Concordance
