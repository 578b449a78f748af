import Concordance.Proofs.Reference.Candidates
import Concordance.Proofs.Text.Occurrence

/-!
Where a name or a token stands as a whole.

Occurrences are met from the left and do not overlap, and of those met the ones are kept that stand
alone. None is lost in that way, because a place where the text stands alone overlaps no occurrence that
starts before it (`mem_map_offset_filter_iff`). A name made of identifier characters would hold the one
right before the place; in a token with a mark in front, the mark would stand further back as well. Main
statement: `wordOffsets_tokenOffsets_exact`.
-/

namespace Concordance

open Text

section Kept

variable {mark text : List Char} {keep : Occurrence → Bool}

theorem edge_iff {p : Char → Bool} {o : Option Char} :
    edge p o = true ↔ ∀ c ∈ o, p c = false := by
  cases o <;> simp [edge]

/-- If an occurrence that is kept overlaps none that starts before it, the offsets kept are those of all
places where the text stands and would be kept. -/
theorem mem_map_offset_filter_iff (hne : mark ≠ [])
    (hkeep : ∀ pre post, keep ⟨pre.getLast?, byteLength pre, post⟩ = true →
      NotAcross mark pre (mark ++ post)) {offset : Nat} :
    offset ∈ ((occurrences mark text).filter keep).map Occurrence.offset ↔
      ∃ pre post, text = pre ++ mark ++ post ∧ byteLength pre = offset ∧
        keep ⟨pre.getLast?, byteLength pre, post⟩ = true := by
  constructor
  · intro h
    obtain ⟨⟨before, place, after⟩, ho, rfl⟩ := List.mem_map.mp h
    obtain ⟨ho, hkept⟩ := List.mem_filter.mp ho
    obtain ⟨pre, htext, hbefore, hplace⟩ := mem_occurrences hne ho
    subst hbefore hplace
    exact ⟨pre, after, htext, rfl, hkept⟩
  · rintro ⟨pre, post, rfl, rfl, hkept⟩
    exact List.mem_map.mpr ⟨_, List.mem_filter.mpr
      ⟨mem_occurrences_of_border hne (hkeep pre post hkept), hkept⟩, rfl⟩

end Kept

section Names

variable {name token text : List Char}

/-- A name made of identifier characters is found where none of them comes right before or after it. -/
theorem mem_wordOffsets_iff (hne : name ≠ []) (hname : ∀ c ∈ name, isIdentChar c = true)
    {offset : Nat} :
    offset ∈ wordOffsets name text ↔ ∃ pre post, text = pre ++ name ++ post ∧
      byteLength pre = offset ∧ (∀ c ∈ pre.getLast?, isIdentChar c = false) ∧
      ∀ c ∈ post.head?, isIdentChar c = false := by
  have hkeep : ∀ pre post, (⟨pre.getLast?, byteLength pre, post⟩ : Occurrence).isWhole = true →
      NotAcross name pre (name ++ post) := by
    intro pre post hwhole
    obtain ⟨hleft, -⟩ := Bool.and_eq_true_iff.mp hwhole
    exact notAcross_of_last_notMem (notMem_of_edge hname hleft) _
  rw [wordOffsets, wholeOccurrences, if_neg (by simpa using hne),
    mem_map_offset_filter_iff hne hkeep]
  simp only [Occurrence.isWhole, Bool.and_eq_true, edge_iff]

/-- What a token of a stylesheet may start with, in front of its name characters. -/
def tokenMarks : List Char :=
  ['.', '#', '$']

/-- A token of a stylesheet: name characters, with a mark in front or without. -/
structure IsToken (token : List Char) : Prop where
  ne_nil : token ≠ []
  chars : ∀ c ∈ token.tail, isNameChar c = true
  first : ∀ c ∈ token.head?, c ∈ tokenMarks ∨ isNameChar c = true

instance (token : List Char) : Decidable (IsToken token) :=
  decidable_of_iff (token ≠ [] ∧ (∀ c ∈ token.tail, isNameChar c = true) ∧
      token.head?.all (fun c => decide (c ∈ tokenMarks ∨ isNameChar c = true)) = true)
    ⟨fun h => ⟨h.1, h.2.1, fun c hc => by simpa [Option.mem_def.mp hc] using h.2.2⟩,
      fun h => ⟨h.ne_nil, h.chars, Option.all_eq_true_iff_get _ _ |>.mpr fun hsome =>
        decide_eq_true (h.first _ (Option.get_mem hsome))⟩⟩

theorem isNameChar_of_mem_tokenMarks {c : Char} (h : c ∈ tokenMarks) : isNameChar c = false := by
  revert c
  decide +kernel

/-- A token that starts with a mark overlaps no other one, for none of its later parts starts as it
does. -/
theorem IsToken.notAcross_of_mark (h : IsToken token) {c : Char} (hc : token.head? = some c)
    (hmark : c ∈ tokenMarks) (pre post : List Char) : NotAcross token pre (token ++ post) := by
  rintro a b htoken ha hb - ⟨rest, hrest⟩
  obtain ⟨d, b, rfl⟩ := List.exists_cons_of_ne_nil hb
  obtain ⟨a₀, a, rfl⟩ := List.exists_cons_of_ne_nil ha
  obtain ⟨ts, rfl⟩ := List.head?_eq_some_iff.mp hc
  obtain rfl : d = c := (List.cons.inj hrest).1
  have htail : ts = a ++ d :: b := (List.cons.inj htoken).2
  have hname := h.chars d (by simp [htail])
  rw [isNameChar_of_mem_tokenMarks hmark] at hname
  cases hname

/-- A token with free edges overlaps none that starts before it. -/
theorem IsToken.notAcross_of_edge (h : IsToken token) {pre post : List Char}
    (hedge : isTokenEdge token ⟨pre.getLast?, byteLength pre, post⟩ = true) :
    NotAcross token pre (token ++ post) := by
  obtain ⟨c, ts, rfl⟩ := List.exists_cons_of_ne_nil h.ne_nil
  rcases h.first c rfl with hmark | hname
  · exact h.notAcross_of_mark rfl hmark pre post
  · -- without a mark the token would hold the character before the place
    have hall : ∀ d ∈ c :: ts, isNameChar d = true := List.forall_mem_cons.mpr ⟨hname, h.chars⟩
    have hdot : c ≠ '.' := by
      rintro rfl
      exact absurd hname (by decide +kernel)
    have hhash : c ≠ '#' := by
      rintro rfl
      exact absurd hname (by decide +kernel)
    have hleft : ∀ d ∈ pre.getLast?, isNameChar d = false := by
      simp only [isTokenEdge, List.head?_cons, Option.some_beq_some, beq_iff_eq, hdot, hhash,
        Bool.and_eq_true, Bool.or_eq_true, false_or, edge_iff, Bool.or_eq_false_iff] at hedge
      exact fun d hd => (hedge.1 d hd).1
    exact notAcross_of_last_notMem (fun d hd hmem => by simpa [hleft d hd] using hall d hmem) _

/-- A token is found where no name character comes right after it and, unless it starts with a dot or a
hash, neither a name character nor a dollar sign right before it. -/
theorem mem_tokenOffsets_iff (htoken : IsToken token) {offset : Nat} :
    offset ∈ tokenOffsets token text ↔ ∃ pre post, text = pre ++ token ++ post ∧
      byteLength pre = offset ∧ (∀ c ∈ post.head?, isNameChar c = false) ∧
      (token.head? = some '.' ∨ token.head? = some '#' ∨
        ∀ c ∈ pre.getLast?, isNameChar c = false ∧ c ≠ '$') := by
  rw [tokenOffsets, if_neg (by simpa using htoken.ne_nil),
    mem_map_offset_filter_iff htoken.ne_nil fun _ _ => htoken.notAcross_of_edge]
  simp only [isTokenEdge, Bool.and_eq_true, Bool.or_eq_true, beq_iff_eq, edge_iff, or_assoc,
    Bool.or_eq_false_iff, beq_eq_false_iff_ne, and_comm]

/-- In ascending order, the offsets found for a name made of identifier characters are those where it
stands with none of them right before or after it, and the offsets found for a token are those where it
stands with no name character right after it and, unless it starts with a dot or a hash, neither a name
character nor a dollar sign right before it. -/
theorem wordOffsets_tokenOffsets_exact (text : List Char) :
    (∀ name, name ≠ [] → (∀ c ∈ name, isIdentChar c = true) →
      (wordOffsets name text).Pairwise (· < ·) ∧
      ∀ offset, offset ∈ wordOffsets name text ↔ ∃ pre post, text = pre ++ name ++ post ∧
        byteLength pre = offset ∧ (∀ c ∈ pre.getLast?, isIdentChar c = false) ∧
        ∀ c ∈ post.head?, isIdentChar c = false) ∧
    ∀ token, IsToken token →
      (tokenOffsets token text).Pairwise (· < ·) ∧
      ∀ offset, offset ∈ tokenOffsets token text ↔ ∃ pre post, text = pre ++ token ++ post ∧
        byteLength pre = offset ∧ (∀ c ∈ post.head?, isNameChar c = false) ∧
        (token.head? = some '.' ∨ token.head? = some '#' ∨
          ∀ c ∈ pre.getLast?, isNameChar c = false ∧ c ≠ '$') :=
  ⟨fun name hne hname => ⟨pairwise_wordOffsets name text, fun _ => mem_wordOffsets_iff hne hname⟩,
    fun token htoken => ⟨pairwise_tokenOffsets token text, fun _ => mem_tokenOffsets_iff htoken⟩⟩

/-- A name and a token that overlap themselves. -/
theorem wordOffsets_tokenOffsets_exact_overlapping :
    (∀ c ∈ "aa".toList, isIdentChar c = true) ∧
      0 ∉ wordOffsets "aa".toList "aaa, aa".toList ∧ 5 ∈ wordOffsets "aa".toList "aaa, aa".toList ∧
      IsToken "--".toList ∧ 4 ∈ tokenOffsets "--".toList "--- --".toList ∧
      IsToken ".a".toList ∧ 2 ∈ tokenOffsets ".a".toList ".a.a".toList := by
  have hname : ∀ c ∈ "aa".toList, isIdentChar c = true := by decide +kernel
  have hdashes : IsToken "--".toList := by decide +kernel
  have hclass : IsToken ".a".toList := by decide +kernel
  obtain ⟨hwords, -⟩ := wordOffsets_tokenOffsets_exact "aaa, aa".toList
  refine ⟨hname, fun h => ?_, ((hwords _ (by decide) hname).2 5).mpr ?_, hdashes, ?_, hclass, ?_⟩
  · obtain ⟨pre, post, htext, hpre, -, hpost⟩ := ((hwords _ (by decide) hname).2 0).mp h
    obtain rfl := byteLength_eq_zero_iff.mp hpre
    obtain rfl : post = "a, aa".toList := by simpa using htext.symm
    exact absurd (hpost 'a' rfl) (by decide +kernel)
  · have hleft : ∀ c ∈ "aaa, ".toList.getLast?, isIdentChar c = false := by
      rintro _ ⟨⟩
      decide +kernel
    exact ⟨"aaa, ".toList, [], by decide, by decide, hleft, nofun⟩
  · have hleft : ∀ c ∈ "--- ".toList.getLast?, isNameChar c = false ∧ c ≠ '$' := by
      rintro _ ⟨⟩
      decide +kernel
    exact (((wordOffsets_tokenOffsets_exact "--- --".toList).2 _ hdashes).2 4).mpr
      ⟨"--- ".toList, [], by decide, by decide, nofun, .inr (.inr hleft)⟩
  · exact (((wordOffsets_tokenOffsets_exact ".a.a".toList).2 _ hclass).2 2).mpr
      ⟨".a".toList, [], by decide, by decide, nofun, .inl rfl⟩

end Names

end Concordance
