import Concordance.Proofs.Text.Trim
import Concordance.Text.Occurrence

/-!
Occurrences of one text in another.

Main statements: `mem_occurrences` (an occurrence is a place where the text stands),
`mem_occurrences_append` (a place is met, although occurrences do not overlap, if the character before
it is none of the text), `occurrencesFrom_append` (the occurrences in two texts one after the other) and
`containsWord_iff`.
-/

namespace Concordance.Text

section Occurrences

variable {mark : List Char}

theorem mem_occurrencesFrom (hne : mark ≠ []) {skip : Nat} {before : Option Char} {offset : Nat}
    {text : List Char} {o : Occurrence} (h : o ∈ occurrencesFrom mark skip before offset text) :
    ∃ pre, text = pre ++ mark ++ o.after ∧ o.before = pre.getLast?.or before ∧
      o.offset = offset + byteLength pre := by
  induction text generalizing skip before offset with
  | nil => cases skip <;> simp [occurrencesFrom, hne] at h
  | cons c cs ih =>
    have hlater : ∀ {skip : Nat},
        o ∈ occurrencesFrom mark skip (some c) (offset + c.utf8Size) cs →
        ∃ pre, c :: cs = pre ++ mark ++ o.after ∧ o.before = pre.getLast?.or before ∧
          o.offset = offset + byteLength pre := by
      intro skip h
      obtain ⟨pre, rfl, hbefore, hoffset⟩ := ih h
      refine ⟨c :: pre, rfl, ?_, by rw [hoffset, byteLength_cons, Nat.add_assoc]⟩
      rw [hbefore, List.getLast?_cons]
      cases pre.getLast? <;> rfl
    cases skip with
    | succ skip => exact hlater h
    | zero =>
      unfold occurrencesFrom at h
      split at h
      · next hprefix =>
        rcases List.mem_cons.mp h with rfl | h
        · refine ⟨[], ?_, rfl, rfl⟩
          exact List.prefix_iff_eq_append.mp (List.isPrefixOf_iff_prefix.mp hprefix) |>.symm
        · exact hlater h
      · exact hlater h

/-- An occurrence is a place where the text stands. -/
theorem mem_occurrences (hne : mark ≠ []) {text : List Char} {o : Occurrence}
    (h : o ∈ occurrences mark text) :
    ∃ pre, text = pre ++ mark ++ o.after ∧ o.before = pre.getLast? ∧ o.offset = byteLength pre := by
  obtain ⟨pre, htext, hbefore, hoffset⟩ := mem_occurrencesFrom hne h
  exact ⟨pre, htext, by rw [hbefore, Option.or_none], by rw [hoffset, Nat.zero_add]⟩

/-- The mark does not stand across the border of two texts. -/
def NotAcross (mark front back : List Char) : Prop :=
  ∀ a b, mark = a ++ b → a ≠ [] → b ≠ [] → a <:+ front → ¬ b <+: back

theorem NotAcross.of_cons {front back : List Char} {c : Char}
    (h : NotAcross mark (c :: front) back) : NotAcross mark front back :=
  fun a b hmark ha hb hsuffix => h a b hmark ha hb (hsuffix.trans (List.suffix_cons c front))

/-- An occurrence that starts before the border ends there or before it. -/
theorem NotAcross.length_le {front back : List Char} (h : NotAcross mark front back)
    (hne : front ≠ []) (hfits : mark <+: front ++ back) : mark.length ≤ front.length := by
  obtain ⟨rest, hrest⟩ := hfits
  rcases List.append_eq_append_iff.mp hrest with ⟨mid, rfl, -⟩ | ⟨mid, rfl, rfl⟩
  · rw [List.length_append]
    exact Nat.le_add_right _ _
  · by_cases hmid : mid = []
    · rw [hmid, List.append_nil]
    · exact absurd (List.prefix_append mid rest) (h front mid rfl hne hmid (List.suffix_refl _))

/-- A text that follows a character that is none of the mark's. -/
theorem notAcross_of_last_notMem {front : List Char} (hfront : ∀ c ∈ front.getLast?, c ∉ mark)
    (back : List Char) : NotAcross mark front back := by
  rintro a b hmark ha - ⟨lead, rfl⟩
  have hlast : (lead ++ a).getLast? = some (a.getLast ha) := by
    rw [List.getLast?_append_of_ne_nil _ ha, List.getLast?_eq_some_getLast ha]
  exact absurd (hmark ▸ List.mem_append_left b (List.getLast_mem ha)) (hfront _ hlast)

/-- Where the mark does not stand across the border of two texts, its occurrences in both together are
some in the first and those in the second. -/
theorem occurrencesFrom_append {front back : List Char} (hborder : NotAcross mark front back)
    {skip : Nat} (hskip : skip ≤ front.length) (before : Option Char) (offset : Nat) :
    ∃ first, occurrencesFrom mark skip before offset (front ++ back) =
        first ++ occurrencesFrom mark 0 (front.getLast?.or before) (offset + byteLength front) back ∧
      ∀ o ∈ first, offset ≤ o.offset ∧ o.offset < offset + byteLength front := by
  induction front generalizing skip before offset with
  | nil =>
    obtain rfl : skip = 0 := Nat.le_zero.mp hskip
    exact ⟨[], rfl, by simp⟩
  | cons c front ih =>
    have hlater : ∀ {skip : Nat}, skip ≤ front.length →
        ∃ first, occurrencesFrom mark skip (some c) (offset + c.utf8Size) (front ++ back) =
            first ++ occurrencesFrom mark 0 ((c :: front).getLast?.or before)
              (offset + byteLength (c :: front)) back ∧
          ∀ o ∈ first, offset ≤ o.offset ∧ o.offset < offset + byteLength (c :: front) := by
      intro skip hskip
      have hlast : (c :: front).getLast?.or before = front.getLast?.or (some c) := by
        rw [List.getLast?_cons]
        cases front.getLast? <;> rfl
      rw [hlast, byteLength_cons, ← Nat.add_assoc]
      obtain ⟨first, hfirst, hrange⟩ := ih hborder.of_cons hskip (some c) (offset + c.utf8Size)
      exact ⟨first, hfirst, fun o ho => ⟨Nat.le_of_add_right_le (hrange o ho).1, (hrange o ho).2⟩⟩
    cases skip with
    | succ skip => exact hlater (Nat.le_of_succ_le_succ hskip)
    | zero =>
      rw [List.cons_append, occurrencesFrom]
      split
      · next hprefix =>
        have hlength : mark.length - 1 ≤ front.length := Nat.sub_le_of_le_add
          (hborder.length_le (List.cons_ne_nil c front) (List.isPrefixOf_iff_prefix.mp hprefix))
        obtain ⟨first, hfirst, hrange⟩ := hlater hlength
        refine ⟨⟨before, offset, (c :: (front ++ back)).drop mark.length⟩ :: first, ?_, ?_⟩
        · rw [hfirst]
          rfl
        · have := c.utf8Size_pos
          refine List.forall_mem_cons.mpr ⟨⟨Nat.le_refl _, ?_⟩, hrange⟩
          dsimp only
          rw [byteLength_cons]
          omega
      · exact hlater (Nat.zero_le _)

/-- A place is met if no occurrence that starts before it reaches into it. -/
theorem mem_occurrences_of_border (hne : mark ≠ []) {pre post : List Char}
    (hborder : NotAcross mark pre (mark ++ post)) :
    ⟨pre.getLast?, byteLength pre, post⟩ ∈ occurrences mark (pre ++ mark ++ post) := by
  obtain ⟨first, hsplit, -⟩ := occurrencesFrom_append hborder (Nat.zero_le _) none 0
  obtain ⟨c, cs, rfl⟩ := List.exists_cons_of_ne_nil hne
  have hprefix : (c :: cs).isPrefixOf (c :: (cs ++ post)) = true :=
    List.isPrefixOf_iff_prefix.mpr (List.prefix_append (c :: cs) post)
  rw [occurrences, List.append_assoc, hsplit, List.cons_append, occurrencesFrom, if_pos hprefix,
    Option.or_none, Nat.zero_add, ← List.cons_append, List.drop_left]
  exact List.mem_append_right _ List.mem_cons_self

/-- A place is met if the character before it is none of the text. -/
theorem mem_occurrences_append (hne : mark ≠ []) {pre : List Char}
    (hpre : ∀ c ∈ pre.getLast?, c ∉ mark) (post : List Char) :
    ⟨pre.getLast?, byteLength pre, post⟩ ∈ occurrences mark (pre ++ mark ++ post) :=
  mem_occurrences_of_border hne (notAcross_of_last_notMem hpre _)

end Occurrences

section Word

variable {name text : List Char}

theorem notMem_of_edge {p : Char → Bool} {mark : List Char} {o : Option Char}
    (hmark : ∀ c ∈ mark, p c = true) (h : edge p o = true) : ∀ c ∈ o, c ∉ mark := by
  rintro c rfl hc
  simp [edge, hmark c hc] at h

theorem edge_getLast?_of_suffix {p : Char → Bool} {xs ys : List Char} (h : xs <:+ ys)
    (hys : edge p ys.getLast? = true) : edge p xs.getLast? = true := by
  obtain ⟨front, rfl⟩ := h
  rw [List.getLast?_append] at hys
  cases hlast : xs.getLast? with
  | none => rfl
  | some c => simpa [hlast] using hys

theorem edge_head?_of_prefix {p : Char → Bool} {xs ys : List Char} (h : xs <+: ys)
    (hys : edge p ys.head? = true) : edge p xs.head? = true := by
  obtain ⟨back, rfl⟩ := h
  cases xs with
  | nil => rfl
  | cons c xs => exact hys

/-- A name made of identifier characters stands as a whole identifier exactly if none of them comes
right before or after it. -/
theorem containsWord_iff (hne : name ≠ []) (hname : ∀ c ∈ name, isIdentChar c = true) :
    containsWord name text = true ↔ ∃ pre post, text = pre ++ name ++ post ∧
      edge isIdentChar pre.getLast? = true ∧ edge isIdentChar post.head? = true := by
  have hmem : containsWord name text = true ↔ ∃ o ∈ occurrences name text, o.isWhole = true := by
    simp [containsWord, wordOffsets, wholeOccurrences, hne, List.filter_eq_nil_iff]
  rw [hmem]
  constructor
  · rintro ⟨o, ho, hwhole⟩
    obtain ⟨pre, htext, hbefore, -⟩ := mem_occurrences hne ho
    obtain ⟨hleft, hright⟩ := Bool.and_eq_true_iff.mp hwhole
    exact ⟨pre, o.after, htext, hbefore ▸ hleft, hright⟩
  · rintro ⟨pre, post, rfl, hleft, hright⟩
    refine ⟨_, mem_occurrences_append hne (notMem_of_edge hname hleft) post, ?_⟩
    simp [Occurrence.isWhole, hleft, hright]

theorem inRanges_iff {ranges : List (Nat × Nat)} {n : Nat} :
    inRanges ranges n = true ↔ ∃ r ∈ ranges, r.1 ≤ n ∧ n ≤ r.2 := by
  simp [inRanges]

/-- The letters and digits of core's classes are all of ASCII. -/
theorem toNat_lt_of_isAlphanum {c : Char} (h : c.isAlphanum = true) : c.toNat < 0x80 := by
  unfold Char.isAlphanum Char.isAlpha Char.isUpper Char.isLower Char.isDigit at h
  simp only [Bool.or_eq_true, Bool.and_eq_true, decide_eq_true_eq, ge_iff_le,
    UInt32.le_iff_toNat_le] at h
  simp only [Char.toNat]
  rcases h with (⟨-, h⟩ | ⟨-, h⟩) | ⟨-, h⟩ <;> exact Nat.lt_of_le_of_lt h (by decide)

/-- White space lies in none of the ranges if no range meets one of its own. -/
theorem inRanges_of_isBlank {c : Char} {ranges : List (Nat × Nat)}
    (hdisjoint : ∀ r ∈ blankRanges, ∀ q ∈ ranges, r.2 < q.1 ∨ q.2 < r.1) (h : isBlank c = true) :
    inRanges ranges c.toNat = false := by
  obtain ⟨r, hr, hlow, hhigh⟩ := inRanges_iff.mp h
  rw [Bool.eq_false_iff]
  intro hin
  obtain ⟨q, hq, hqlow, hqhigh⟩ := inRanges_iff.mp hin
  have := hdisjoint r hr q hq
  omega

/-- White space is no part of an identifier. -/
theorem isIdentChar_of_isBlank {c : Char} (h : isBlank c = true) : isIdentChar c = false := by
  by_cases hascii : c.toNat < 0x80
  · have hall : ∀ n < 0x80, inRanges blankRanges n = true →
        isIdentChar (Char.ofNat n) = false := by
      decide +kernel
    rw [← Char.ofNat_toNat c]
    exact hall c.toNat hascii h
  · have hranges : inRanges alphanumericRanges c.toNat = false :=
      inRanges_of_isBlank (by decide +kernel) h
    have hne : ∀ d : Char, d.toNat < 0x80 → c ≠ d := by
      rintro d hd rfl
      exact hascii hd
    simp [isIdentChar, isAlphanumeric, hascii, hranges, hne '_' (by decide), hne '$' (by decide)]

end Word

section Cuts

variable {c : Char} {pre post pre' post' : List Char}

/-- A text has one cut at its last occurrence of a character. -/
theorem eq_of_cut_at_last (h : pre ++ c :: post = pre' ++ c :: post') (hpost : c ∉ post)
    (hpost' : c ∉ post') : pre = pre' := by
  rcases List.append_eq_append_iff.mp h with ⟨mid, rfl, hmid⟩ | ⟨mid, rfl, hmid⟩
  · cases mid with
    | nil => exact (List.append_nil pre).symm
    | cons d mid =>
      obtain ⟨-, rfl⟩ := List.cons.inj hmid
      exact absurd (List.mem_append_right mid List.mem_cons_self) hpost
  · cases mid with
    | nil => exact List.append_nil pre'
    | cons d mid =>
      obtain ⟨-, rfl⟩ := List.cons.inj hmid
      exact absurd (List.mem_append_right mid List.mem_cons_self) hpost'

/-- A list has one cut into elements with a property and a rest that starts with none of them. -/
theorem append_inj_of_head {α : Type} {p : α → Prop} {xs ys xs' ys' : List α}
    (hxs : ∀ a ∈ xs, p a) (hxs' : ∀ a ∈ xs', p a) (hys : ∀ a ∈ ys.head?, ¬ p a)
    (hys' : ∀ a ∈ ys'.head?, ¬ p a) (h : xs ++ ys = xs' ++ ys') : xs = xs' ∧ ys = ys' := by
  rcases List.append_eq_append_iff.mp h with ⟨mid, rfl, rfl⟩ | ⟨mid, rfl, rfl⟩
  · cases mid with
    | nil => simp
    | cons a mid => exact absurd (hxs' a (by simp)) (hys a rfl)
  · cases mid with
    | nil => simp
    | cons a mid => exact absurd (hxs a (by simp)) (hys' a rfl)

theorem replaceChar_eq_self {into text : List Char} (h : c ∉ text) :
    replaceChar c into text = text := by
  rw [replaceChar]
  calc text.flatMap (fun d => if d = c then into else [d])
      = text.flatMap fun d => [d] := List.flatMap_congr fun d hd => if_neg (ne_of_mem_of_not_mem hd h)
    _ = text := List.flatMap_singleton' text

theorem mem_intercalate {mark : Char} {pieces : List (List Char)}
    (h : c ∈ [mark].intercalate pieces) : c = mark ∨ ∃ piece ∈ pieces, c ∈ piece := by
  rw [List.intercalate, List.mem_flatten] at h
  obtain ⟨part, hpart, hc⟩ := h
  induction pieces with
  | nil => simp at hpart
  | cons piece pieces ih =>
    cases pieces with
    | nil =>
      obtain rfl : part = piece := by simpa using hpart
      exact Or.inr ⟨part, List.mem_cons_self, hc⟩
    | cons next more =>
      rw [List.intersperse_cons_cons, List.mem_cons, List.mem_cons] at hpart
      rcases hpart with rfl | rfl | hpart
      · exact Or.inr ⟨_, List.mem_cons_self, hc⟩
      · exact Or.inl (by simpa using hc)
      · exact (ih hpart).imp_right fun ⟨p, hp, hcp⟩ => ⟨p, List.mem_cons_of_mem _ hp, hcp⟩

theorem isInfix_intercalate {mark piece : List Char} {pieces : List (List Char)}
    (h : piece ∈ pieces) : piece <:+: mark.intercalate pieces := by
  induction pieces with
  | nil => cases h
  | cons first pieces ih =>
    cases pieces with
    | nil =>
      obtain rfl := List.mem_singleton.mp h
      simp [List.intercalate]
    | cons next more =>
      rw [List.intercalate_cons_cons]
      rcases List.mem_cons.mp h with rfl | h
      · rw [List.append_assoc]
        exact (List.prefix_append _ _).isInfix
      · exact (ih h).trans (List.suffix_append _ _).isInfix

/-- Collapsing white space neither takes nor adds anything else. -/
theorem mem_collapseBlanks_iff {text : List Char} (hc : isBlank c = false) :
    c ∈ collapseBlanks text ↔ c ∈ text := by
  have hwords : (∃ word ∈ words text, c ∈ word) ↔ c ∈ text := by
    rw [← List.mem_flatten, flatten_words, List.mem_filter]
    simp [hc]
  rw [collapseBlanks, ← hwords]
  constructor
  · intro hmem
    refine (mem_intercalate hmem).resolve_left ?_
    rintro rfl
    cases hc
  · rintro ⟨word, hword, hmem⟩
    exact (isInfix_intercalate hword).subset hmem

end Cuts

end Concordance.Text
