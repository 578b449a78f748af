import Concordance.Proofs.Source.ByteCode
import Concordance.Proofs.Source.Depth

/-!
The depth of nesting tracked in the bytes of a text.

A tracker of two numbers, a place and the depth there, passes over comments and literals as a whole, so
it may stand behind the offset that it was asked for. It answers what the tracker answers that reads
character by character and keeps where its reading stands (`depths_utf8`), at any list of offsets: at an
offset behind the place it moves on, and at one before it the answer stays as it is.
-/

namespace Concordance

open Text Digest SourceText

namespace Bytewise

/-- A count of open braces, and the byte up to which they are counted. -/
structure DepthTracker where
  position : Nat
  depth : Nat
deriving Repr, DecidableEq

namespace DepthTracker

/-- The tracker after the bytes before `target`. -/
def advanceTo (rules : LexicalRules) (bytes : List UInt8) (target : Nat) (t : DepthTracker) :
    DepthTracker :=
  if hlt : t.position < min target bytes.length then
    match hcomment : commentEnd? (comments rules bytes) t.position with
    | some stop => advanceTo rules bytes target ⟨stop, t.depth⟩
    | none =>
      match hliteral : stringEnd? rules bytes t.position with
      | some stop => advanceTo rules bytes target ⟨stop, t.depth⟩
      | none =>
        have hbyte : t.position < bytes.length := Nat.lt_of_lt_of_le hlt (Nat.min_le_right ..)
        advanceTo rules bytes target
          ⟨t.position + 1, braceDepth t.depth bytes[t.position].toChar⟩
  else t
termination_by bytes.length - t.position
decreasing_by
  · have := lt_of_commentEnd? hcomment
    omega
  · have := lt_of_stringEnd? hliteral
    omega
  · omega

/-- The answers of a tracker that moves on from offset to offset. -/
def depths (rules : LexicalRules) (bytes : List UInt8) : DepthTracker → List Nat → List Nat
  | _, [] => []
  | t, offset :: rest =>
    let t := t.advanceTo rules bytes offset
    t.depth :: depths rules bytes t rest

section Steps

variable {rules : LexicalRules} {bytes : List UInt8} {target position depth stop : Nat} {b : UInt8}

theorem advanceTo_of_le (t : DepthTracker) (h : min target bytes.length ≤ t.position) :
    t.advanceTo rules bytes target = t := by
  rw [advanceTo, dif_neg (Nat.not_lt_of_le h)]

theorem advanceTo_of_comment (depth : Nat) (hlt : position < min target bytes.length)
    (h : commentEnd? (comments rules bytes) position = some stop) :
    advanceTo rules bytes target ⟨position, depth⟩ = advanceTo rules bytes target ⟨stop, depth⟩ := by
  rw [advanceTo, dif_pos hlt]
  split
  · next stop' hstop =>
    obtain rfl := Option.some.inj (h.symm.trans hstop)
    rfl
  · next hnone => cases h.symm.trans hnone

theorem advanceTo_of_literal (depth : Nat) (hlt : position < min target bytes.length)
    (hfree : commentEnd? (comments rules bytes) position = none)
    (h : stringEnd? rules bytes position = some stop) :
    advanceTo rules bytes target ⟨position, depth⟩ = advanceTo rules bytes target ⟨stop, depth⟩ := by
  rw [advanceTo, dif_pos hlt]
  split
  · next stop' hstop => cases hfree.symm.trans hstop
  · split
    · next stop' hstop =>
      obtain rfl := Option.some.inj (h.symm.trans hstop)
      rfl
    · next hnone => cases h.symm.trans hnone

theorem advanceTo_of_byte (depth : Nat) (hb : bytes[position]? = some b) (hlt : position < target)
    (hfree : commentEnd? (comments rules bytes) position = none)
    (h : stringEnd? rules bytes position = none) :
    advanceTo rules bytes target ⟨position, depth⟩ =
      advanceTo rules bytes target ⟨position + 1, braceDepth depth b.toChar⟩ := by
  obtain ⟨hlength, rfl⟩ := List.getElem?_eq_some_iff.mp hb
  rw [advanceTo, dif_pos (by simpa using ⟨hlt, hlength⟩)]
  split
  · next stop' hstop => cases hfree.symm.trans hstop
  · split
    · next stop' hstop => cases h.symm.trans hstop
    · rfl

/-- A tracker that moved stands at the offset or behind it, or at the end of the bytes. -/
theorem min_le_position_advanceTo (t : DepthTracker) :
    min target bytes.length ≤ (t.advanceTo rules bytes target).position := by
  fun_induction advanceTo rules bytes target t with
  | case1 t hlt stop hcomment ih => exact ih
  | case2 t hlt hcomment stop hliteral ih => exact ih
  | case3 t hlt hcomment hliteral hbyte ih => exact ih
  | case4 t hlt => exact Nat.not_lt.mp hlt

/-- A tracker that moves on in two steps gets where one step leads. -/
theorem advanceTo_advanceTo {target' : Nat} (h : target ≤ target') (t : DepthTracker) :
    (t.advanceTo rules bytes target).advanceTo rules bytes target' =
      t.advanceTo rules bytes target' := by
  fun_induction advanceTo rules bytes target t with
  | case1 t hlt stop hcomment ih =>
    exact ih.trans (advanceTo_of_comment t.depth (by omega) hcomment).symm
  | case2 t hlt hcomment stop hliteral ih =>
    exact ih.trans (advanceTo_of_literal t.depth (by omega) hcomment hliteral).symm
  | case3 t hlt hcomment hliteral hbyte ih =>
    exact ih.trans (advanceTo_of_byte t.depth (List.getElem?_eq_getElem hbyte) (by omega) hcomment
      hliteral).symm
  | case4 t hlt => rfl

/-- A tracker that was asked twice is where the larger offset takes it. -/
theorem advanceTo_advanceTo_max (t : DepthTracker) (target target' : Nat) :
    (t.advanceTo rules bytes target).advanceTo rules bytes target' =
      t.advanceTo rules bytes (max target target') := by
  rcases Nat.le_total target target' with h | h
  · rw [Nat.max_eq_right h, advanceTo_advanceTo h]
  · have hmoved : min target bytes.length ≤ (t.advanceTo rules bytes target).position :=
      t.min_le_position_advanceTo
    rw [Nat.max_eq_left h, advanceTo_of_le _ (by omega)]

end Steps

section Texts

variable {s : SourceText} {offset depth : Nat} {code : List CodeChar}

theorem braceDepth_of_high (depth : Nat) {c : Char} (h : 0x80 ≤ c.toNat) :
    braceDepth depth c = depth := by
  rw [braceDepth, if_neg (ne_of_high h (by decide)), if_neg (ne_of_high h (by decide))]

/-- A byte outside ASCII leaves the depth as it is. -/
theorem depth_advanceTo_of_high (hrules : s.rules.Ascii) (target depth : Nat) {b : UInt8}
    (hb : (utf8 s.chars)[offset]? = some b) (hhigh : 0x80 ≤ b.toNat) :
    (advanceTo s.rules (utf8 s.chars) target ⟨offset, depth⟩).depth =
      (advanceTo s.rules (utf8 s.chars) target ⟨offset + 1, depth⟩).depth := by
  have hlength := (List.getElem?_eq_some_iff.mp hb).1
  have hcomments := fun offset => commentEnd?_utf8 hrules (s := s) offset
  by_cases hlt : offset < target
  · have hmin : offset < min target (utf8 s.chars).length := by omega
    cases hcomment : s.commentEnd? offset with
    | none =>
      rw [advanceTo_of_byte depth hb hlt ((hcomments _).trans hcomment)
        (stringEnd?_of_high hrules hb hhigh), braceDepth_of_high depth (c := b.toChar) hhigh]
    | some stop =>
      rw [advanceTo_of_comment depth hmin ((hcomments _).trans hcomment)]
      rcases SourceText.commentEnd?_succ hcomment with hend | ⟨hcomment', hlt'⟩
      · rw [← hend]
      · by_cases hnext : offset + 1 < target
        · have hinside : offset + 1 < (utf8 s.chars).length := by rwa [length_utf8]
          exact congrArg DepthTracker.depth
            (advanceTo_of_comment depth (by omega) ((hcomments _).trans hcomment')).symm
        · have hstop := SourceText.lt_of_commentEnd? hcomment
          rw [advanceTo_of_le, advanceTo_of_le] <;> dsimp only <;> omega
  · rw [advanceTo_of_le, advanceTo_of_le] <;> dsimp only <;> omega

/-- Within a character outside ASCII a tracker counts from behind it. -/
theorem depth_advanceTo_within (hrules : s.rules.Ascii) (target depth : Nat) {front back : List Char}
    {c : Char} {k : Nat} (hchars : s.chars = front ++ c :: back) (hc : 0x80 ≤ c.toNat)
    (hle : k ≤ c.utf8Size) :
    (advanceTo s.rules (utf8 s.chars) target ⟨byteLength front + k, depth⟩).depth =
      (advanceTo s.rules (utf8 s.chars) target ⟨byteLength front + c.utf8Size, depth⟩).depth :=
  eq_behind_of_high (f := fun n => (advanceTo s.rules (utf8 s.chars) target ⟨n, depth⟩).depth)
    hchars hc (fun _ _ _ _ hb hhigh => depth_advanceTo_of_high hrules target depth hb hhigh) hle

/-- At or behind the offset a tracker stays, and a run meets nothing before it. -/
theorem depth_advanceTo_of_le {target : Nat} (h : s.Meets offset code) (hle : target ≤ offset)
    (depth : Nat) :
    (advanceTo s.rules (utf8 s.chars) target ⟨offset, depth⟩).depth =
      (code.filter (·.offset < target)).foldl (fun depth x => braceDepth depth x.char) depth := by
  have hnone : code.filter (·.offset < target) = [] := by
    rw [List.filter_eq_nil_iff]
    intro x hx
    have := (h.of_mem hx).1
    simp only [decide_eq_true_eq]
    omega
  rw [advanceTo_of_le _ ((Nat.min_le_left ..).trans hle), hnone]
  rfl

/-- A tracker in the bytes of a text counts the braces among the characters that a run meets before the
offset. -/
theorem depth_advanceTo_of_meets (hrules : s.rules.Ascii) (target : Nat) (h : s.Meets offset code)
    (depth : Nat) :
    (advanceTo s.rules (utf8 s.chars) target ⟨offset, depth⟩).depth =
      (code.filter (·.offset < target)).foldl (fun depth x => braceDepth depth x.char) depth := by
  have hnone : ∀ {offset : Nat}, s.inComment offset = false →
      commentEnd? (comments s.rules (utf8 s.chars)) offset = none := fun hfree =>
    (commentEnd?_utf8 hrules _).trans (SourceText.commentEnd?_eq_none hfree)
  have hinside : ∀ {offset : Nat}, offset < target → offset < s.length →
      offset < min target (utf8 s.chars).length := fun hlt hlength =>
    Nat.lt_min.mpr ⟨hlt, by rwa [length_utf8]⟩
  induction h generalizing depth with
  | done hend =>
    rw [advanceTo_of_le _ (by rw [length_utf8]; exact (Nat.min_le_right ..).trans hend)]
    rfl
  | comment hcomment later ih =>
    rcases Nat.lt_or_ge _ target with hlt | hge
    · rw [advanceTo_of_comment depth (hinside hlt (lt_length_of_commentEnd? hcomment))
        ((commentEnd?_utf8 hrules _).trans hcomment)]
      exact ih depth
    · exact depth_advanceTo_of_le (.comment hcomment later) hge depth
  | literal hfree hliteral later ih =>
    rcases Nat.lt_or_ge _ target with hlt | hge
    · rw [advanceTo_of_literal depth (hinside hlt (lt_length_of_stringEnd? hliteral)) (hnone hfree)
        ((stringEnd?_utf8 hrules _).trans hliteral)]
      exact ih depth
    · exact depth_advanceTo_of_le (.literal hfree hliteral later) hge depth
  | @code offset c code hfree hchar hquote later ih =>
    rcases Nat.lt_or_ge offset target with hlt | hge
    · obtain ⟨front, back, hchars, rfl⟩ := SourceText.charAt?_eq_some_iff.mp hchar
      rw [List.filter_cons_of_pos (by simpa using hlt), List.foldl_cons, ← ih]
      rcases ascii_or_high c with ⟨hc, -⟩ | ⟨hc, -⟩
      · have hliteral : stringEnd? s.rules (utf8 s.chars) (byteLength front) = none := by
          rw [stringEnd?_utf8 hrules]
          exact stringEnd?_of_not_quote hchar (by simpa using hquote)
        rw [advanceTo_of_byte depth (getElem?_of_ascii hchars hc) hlt (hnone hfree) hliteral,
          toChar_toUInt8 hc, ← utf8Size_of_ascii hc]
      · rw [braceDepth_of_high depth hc]
        exact depth_advanceTo_within hrules target depth hchars hc (Nat.zero_le _)
    · exact depth_advanceTo_of_le (.code hfree hchar hquote later) hge depth

/-- At any offset a tracker in the bytes of a text answers as the one that reads its characters, also
if it starts within a character. -/
theorem depth_advanceTo_utf8 (hrules : s.rules.Ascii) (start target : Nat) :
    (advanceTo s.rules (utf8 s.chars) target ⟨start, 0⟩).depth =
      ((s.depthTracker start).advanceTo target).depth := by
  rw [depth_depthTracker]
  have hplace : ∀ {start : Nat}, onBoundary start s.chars = true →
      (advanceTo s.rules (utf8 s.chars) target ⟨start, 0⟩).depth =
        ((s.codeFrom start).filter (·.offset < target)).foldl
          (fun depth x => braceDepth depth x.char) 0 := fun h =>
    depth_advanceTo_of_meets hrules target (SourceText.meets_codeFrom h) 0
  rcases Nat.lt_or_ge start s.length with hlt | hge
  · obtain ⟨front, c, back, hchars, hle, hlt⟩ := exists_char_of_lt hlt
    obtain ⟨k, rfl⟩ := Nat.exists_eq_add_of_le hle
    have hk : k < c.utf8Size := by omega
    have hbehind : onBoundary (byteLength front + c.utf8Size) s.chars = true :=
      hchars ▸ onBoundary_behind front c back
    rcases Nat.eq_zero_or_pos k with rfl | hpos
    · exact hplace (hchars ▸ onBoundary_byteLength front (c :: back))
    · rw [depth_advanceTo_within hrules target 0 hchars (high_of_within hpos hk) hk.le,
        SourceText.codeFrom_within hchars hpos.ne' hk.le]
      exact hplace hbehind
  · rw [SourceText.codeFrom_of_length_le hge]
    exact depth_advanceTo_of_meets hrules target (.done hge) 0

/-- Trackers that answer alike wherever they are asked first go on to answer alike. -/
theorem depths_eq_of_depth_eq {rules : LexicalRules} {bytes : List UInt8} {t : DepthTracker}
    {t' : Concordance.DepthTracker}
    (h : ∀ target, (t.advanceTo rules bytes target).depth = (t'.advanceTo target).depth)
    (offsets : List Nat) : t.depths rules bytes offsets = t'.depths offsets := by
  induction offsets generalizing t t' with
  | nil => rfl
  | cons offset rest ih =>
    have hlater : ∀ target,
        ((t.advanceTo rules bytes offset).advanceTo rules bytes target).depth =
          ((t'.advanceTo offset).advanceTo target).depth := fun target => by
      rw [advanceTo_advanceTo_max, Concordance.DepthTracker.advanceTo_advanceTo_max]
      exact h _
    rw [depths, Concordance.DepthTracker.depths, h offset, ih hlater]

/-- A tracker in the bytes of a text answers as the one that reads its characters, from any byte and at
any list of offsets. -/
theorem depths_utf8 (hrules : s.rules.Ascii) (start : Nat) (offsets : List Nat) :
    depths s.rules (utf8 s.chars) ⟨start, 0⟩ offsets = (s.depthTracker start).depths offsets :=
  depths_eq_of_depth_eq (depth_advanceTo_utf8 hrules start) offsets

end Texts

end DepthTracker

end Bytewise

end Concordance
