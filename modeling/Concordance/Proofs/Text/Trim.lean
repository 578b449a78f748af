import Mathlib.Data.List.DropRight
import Concordance.Text.Blank

/-!
Trimming, stripping and searching as facts about appended texts.

Main statements: `trimEnd_append_blank` and `trimStart_append_blank` (white space at an end does not
count), `trimEnd_cons` (trimming by recursion), `contains_iff` (a mark stands in a text if the text
can be cut around it), `isInfix_trimEnd_iff` (trimming hides no mark) and
`collapseBlanks_append_blank` (white space in front is nothing to the words).
-/

namespace Concordance.Text

/-- Every character is white space. -/
def AllBlank (text : List Char) : Prop :=
  ∀ c ∈ text, isBlank c = true

/-- What holds of the characters of a text is decided along the text. The priority keeps it before
the instance that tries every character there is. -/
instance (priority := 2000) decidableForallChar (p : Char → Prop) [DecidablePred p]
    (text : List Char) : Decidable (∀ c ∈ text, p c) :=
  List.decidableBAll p text

instance (text : List Char) : Decidable (AllBlank text) :=
  decidableForallChar _ text

section Trim

variable {pre post text : List Char} {c : Char}

theorem trimEnd_eq_rdropWhile (text : List Char) : trimEnd text = text.rdropWhile isBlank := rfl

theorem trimEnd_isPrefix (text : List Char) : trimEnd text <+: text :=
  List.rdropWhile_prefix isBlank text

@[simp] theorem trimEnd_nil : trimEnd [] = [] := rfl

@[simp] theorem trimStart_nil : trimStart [] = [] := rfl

@[simp] theorem trimEnd_trimEnd (text : List Char) : trimEnd (trimEnd text) = trimEnd text :=
  List.rdropWhile_idempotent isBlank text

theorem trimEnd_eq_nil_iff : trimEnd text = [] ↔ AllBlank text :=
  List.rdropWhile_eq_nil_iff

theorem trimEnd_append_blank (h : AllBlank post) : trimEnd (text ++ post) = trimEnd text := by
  induction post using List.reverseRecOn with
  | nil => rw [List.append_nil]
  | append_singleton post c ih =>
    have hc : isBlank c = true := h c (by simp)
    rw [trimEnd_eq_rdropWhile, ← List.append_assoc, List.rdropWhile_concat_pos isBlank _ c hc]
    exact ih fun d hd => h d (List.mem_append_left [c] hd)

theorem trimEnd_concat (text : List Char) (h : isBlank c = false) :
    trimEnd (text ++ [c]) = text ++ [c] :=
  List.rdropWhile_concat_neg isBlank text c (by simp [h])

/-- A trimmed text ends with no white space. -/
theorem not_suffix_of_trimEnd (hc : isBlank c = true) (h : trimEnd text = text) :
    ¬ [c] <:+ text := by
  rintro ⟨front, rfl⟩
  have hblank : AllBlank [c] := by
    intro d hd
    obtain rfl : d = c := by simpa using hd
    exact hc
  rw [trimEnd_append_blank hblank] at h
  have hlen := (trimEnd_isPrefix front).length_le
  rw [h, List.length_append, List.length_singleton] at hlen
  omega

/-- Trimming the end leaves the front alone as long as something is left behind it. -/
theorem trimEnd_append_of_ne_nil (pre : List Char) (h : trimEnd text ≠ []) :
    trimEnd (pre ++ text) = pre ++ trimEnd text := by
  induction text using List.reverseRecOn with
  | nil => exact absurd rfl h
  | append_singleton text c ih =>
    by_cases hc : isBlank c = true
    · simp only [trimEnd_eq_rdropWhile, ← List.append_assoc,
        List.rdropWhile_concat_pos isBlank _ c hc] at h ⊢
      exact ih h
    · simp only [trimEnd_eq_rdropWhile, ← List.append_assoc,
        List.rdropWhile_concat_neg isBlank _ c hc]

theorem trimEnd_cons_of_not_blank (h : isBlank c = false) :
    trimEnd (c :: text) = c :: trimEnd text := by
  by_cases ht : trimEnd text = []
  · have hblank := trimEnd_eq_nil_iff.mp ht
    rw [ht, show c :: text = [c] ++ text from rfl, trimEnd_append_blank hblank]
    exact trimEnd_concat [] h
  · exact trimEnd_append_of_ne_nil [c] ht

theorem trimEnd_cons_of_ne_nil (h : trimEnd text ≠ []) : trimEnd (c :: text) = c :: trimEnd text :=
  trimEnd_append_of_ne_nil [c] h

theorem trimStart_append_blank (h : AllBlank pre) : trimStart (pre ++ text) = trimStart text :=
  List.dropWhile_append_of_pos h

theorem trimStart_cons (h : isBlank c = false) : trimStart (c :: text) = c :: text :=
  List.dropWhile_cons_of_neg (by simp [h])

theorem trimStart_cons_blank (h : isBlank c = true) : trimStart (c :: text) = trimStart text :=
  List.dropWhile_cons_of_pos h

theorem trimStart_eq_self_iff : trimStart text = text ↔ ∀ c ∈ text.head?, isBlank c = false := by
  cases text with
  | nil => simp
  | cons c text =>
    by_cases hc : isBlank c = true
    · have hlength := (List.dropWhile_suffix isBlank (l := text)).length_le
      rw [trimStart_cons_blank hc]
      refine iff_of_false (fun h => ?_) (by simp [hc])
      rw [trimStart] at h
      rw [h, List.length_cons] at hlength
      omega
    · rw [Bool.not_eq_true] at hc
      exact iff_of_true (trimStart_cons hc) (by simp [hc])

/-- A text between white space, when it starts with none. -/
theorem trim_of_head (hpre : AllBlank pre) (hc : isBlank c = false) :
    trim (pre ++ c :: text) = c :: trimEnd text := by
  rw [trim, trimStart_append_blank hpre, trimStart_cons hc, trimEnd_cons_of_not_blank hc]

/-- The ends can be trimmed in either order. -/
theorem trimStart_trimEnd (text : List Char) : trimStart (trimEnd text) = trim text := by
  induction text with
  | nil => rfl
  | cons c cs ih =>
    by_cases hc : isBlank c = true
    · rw [trim, trimStart_cons_blank hc]
      by_cases hcs : trimEnd cs = []
      · have hblank : AllBlank (c :: cs) := by
          intro d hd
          rcases List.mem_cons.mp hd with rfl | hd
          · exact hc
          · exact trimEnd_eq_nil_iff.mp hcs d hd
        rw [trimEnd_eq_nil_iff.mpr hblank]
        rw [hcs] at ih
        exact ih
      · rw [trimEnd_cons_of_ne_nil hcs, trimStart_cons_blank hc]
        exact ih
    · rw [Bool.not_eq_true] at hc
      rw [trim, trimStart_cons hc, trimEnd_cons_of_not_blank hc, trimStart_cons hc]

theorem trim_eq_self_iff :
    trim text = text ↔ trimStart text = text ∧ trimEnd text = text := by
  constructor
  · intro h
    have hlen : (trim text).length ≤ (trimStart text).length := (trimEnd_isPrefix _).length_le
    have hsuf : trimStart text <:+ text := List.dropWhile_suffix isBlank
    have hstart : trimStart text = text := by
      apply hsuf.eq_of_length_le
      rw [h] at hlen
      exact hlen
    exact ⟨hstart, by rw [trim, hstart] at h; exact h⟩
  · rintro ⟨hstart, hend⟩
    rw [trim, hstart, hend]

@[simp] theorem trim_trim (text : List Char) : trim (trim text) = trim text := by
  rw [trim_eq_self_iff]
  refine ⟨?_, trimEnd_trimEnd _⟩
  cases hcase : trim text with
  | nil => rfl
  | cons c rest =>
    obtain ⟨more, hmore⟩ : trim text <+: trimStart text := trimEnd_isPrefix _
    have hhead := List.head?_dropWhile_not isBlank text
    rw [show text.dropWhile isBlank = c :: (rest ++ more) by rw [← List.cons_append, ← hcase, hmore]; rfl] at hhead
    exact trimStart_cons hhead

end Trim

section Marks

variable {mark text rest : List Char}

/-- A mark stands in a text exactly if the text can be cut around it. -/
theorem contains_iff : contains mark text = true ↔ mark <:+: text := by
  induction text with
  | nil => cases mark <;> simp [contains]
  | cons c cs ih => simp [contains, ih, List.infix_cons_iff]

theorem fromFirst?_eq_none_iff : fromFirst? mark text = none ↔ ¬ mark <:+: text := by
  induction text with
  | nil => cases mark <;> simp [fromFirst?]
  | cons c cs ih =>
    rw [fromFirst?, List.infix_cons_iff, ← List.isPrefixOf_iff_prefix]
    split
    · next h => simp [h]
    · next h => simp [h, ih]

/-- A mark is met where it stands if its first character does not come before. -/
theorem fromFirst?_append {c : Char} {pre : List Char} (h : c ∉ pre) (mark rest : List Char) :
    fromFirst? (c :: mark) (pre ++ (c :: mark ++ rest)) = some (c :: mark ++ rest) := by
  induction pre with
  | nil => simp [fromFirst?, List.isPrefixOf_iff_prefix]
  | cons d pre ih =>
    rw [List.mem_cons, not_or] at h
    have hno : (c :: mark).isPrefixOf (d :: (pre ++ (c :: mark ++ rest))) = false := by
      simp [List.isPrefixOf, h.1]
    rw [List.cons_append, fromFirst?, hno, if_neg Bool.false_ne_true, ih h.2]

theorem stripFront?_eq_some_iff : stripFront? mark text = some rest ↔ text = mark ++ rest := by
  unfold stripFront?
  split
  · next h =>
    obtain ⟨tail, rfl⟩ := List.isPrefixOf_iff_prefix.mp h
    simp [eq_comm]
  · next h =>
    have hno : ¬ mark <+: text := fun hpre => h (List.isPrefixOf_iff_prefix.mpr hpre)
    constructor
    · intro hnone
      cases hnone
    · rintro rfl
      exact absurd (List.prefix_append mark rest) hno

theorem stripFront?_eq_none_iff : stripFront? mark text = none ↔ ¬ mark <+: text := by
  simp [stripFront?, ← List.isPrefixOf_iff_prefix]

theorem stripBack?_eq_none_iff : stripBack? mark text = none ↔ ¬ mark <:+ text := by
  simp [stripBack?, ← List.isSuffixOf_iff_suffix]

@[simp] theorem stripFront?_append : stripFront? mark (mark ++ rest) = some rest :=
  stripFront?_eq_some_iff.mpr rfl

@[simp] theorem stripBack?_append : stripBack? mark (rest ++ mark) = some rest := by
  simp [stripBack?]

theorem stripFront?_getD_suffix (mark text : List Char) :
    (stripFront? mark text).getD text <:+ text := by
  cases h : stripFront? mark text with
  | none => exact List.suffix_rfl
  | some rest => exact ⟨mark, (stripFront?_eq_some_iff.mp h).symm⟩

theorem stripBack?_getD_isPrefix (mark text : List Char) :
    (stripBack? mark text).getD text <+: text := by
  unfold stripBack?
  split
  · exact List.take_prefix _ _
  · exact List.prefix_rfl

/-- Trimming the end hides no mark that has no white space. -/
theorem isInfix_trimEnd_iff (hne : mark ≠ []) (hmark : ∀ c ∈ mark, isBlank c = false) :
    mark <:+: trimEnd text ↔ mark <:+: text := by
  refine ⟨fun h => h.trans (trimEnd_isPrefix text).isInfix, ?_⟩
  rintro ⟨before, after, rfl⟩
  have hlast := List.dropLast_append_getLast hne
  have hkept : trimEnd mark = mark := by
    rw [← hlast]
    exact trimEnd_concat _ (hmark _ (List.getLast_mem hne))
  by_cases hafter : trimEnd after = []
  · rw [trimEnd_append_blank (trimEnd_eq_nil_iff.mp hafter),
      trimEnd_append_of_ne_nil _ (by rw [hkept]; exact hne), hkept]
    exact ⟨before, [], by simp⟩
  · rw [trimEnd_append_of_ne_nil _ hafter]
    exact ⟨before, trimEnd after, rfl⟩

/-- Trimming hides no mark that has no white space. -/
theorem isInfix_trim_iff (hne : mark ≠ []) (hmark : ∀ c ∈ mark, isBlank c = false) :
    mark <:+: trim text ↔ mark <:+: text := by
  rw [trim, isInfix_trimEnd_iff hne hmark]
  induction text with
  | nil => rfl
  | cons c cs ih =>
    cases hc : isBlank c with
    | false => rw [trimStart_cons hc]
    | true =>
      rw [trimStart_cons_blank hc, ih, List.infix_cons_iff]
      refine (or_iff_right fun hpre => ?_).symm
      obtain ⟨d, rest, rfl⟩ := List.exists_cons_of_ne_nil hne
      obtain ⟨rfl, -⟩ := List.cons_prefix_cons.mp hpre
      rw [hmark d List.mem_cons_self] at hc
      cases hc

end Marks

section Words

/-- The words of a text do not depend on where it stands. -/
theorem map_snd_wordsFrom (offset : Nat) (text : List Char) :
    (wordsFrom offset text).map Prod.snd = words text := by
  rw [words]
  generalize 0 = origin
  induction text generalizing offset origin with
  | nil => rfl
  | cons c cs ih =>
    have hlater := ih (offset + c.utf8Size) (origin + c.utf8Size)
    simp only [wordsFrom]
    split
    · exact hlater
    · generalize wordsFrom (offset + c.utf8Size) cs = later at hlater
      generalize wordsFrom (origin + c.utf8Size) cs = later' at hlater
      cases cs with
      | nil => simpa using hlater
      | cons d ds =>
        match later, later', hlater with
        | [], [], _ => rfl
        | (_, w) :: rest, (_, w') :: rest', hlater =>
          obtain ⟨hw, hrest⟩ := List.cons.inj hlater
          dsimp only at hw ⊢
          split
          · exact congrArg (List.cons [c]) hlater
          · exact congrArg₂ (fun w rest => (c :: w) :: rest) hw hrest

theorem words_cons_blank {c : Char} (hc : isBlank c = true) (text : List Char) :
    words (c :: text) = words text := by
  rw [← map_snd_wordsFrom (0 + c.utf8Size) text]
  simp [words, wordsFrom, hc]

/-- White space in front of a text is nothing to its words. -/
theorem collapseBlanks_append_blank {pre : List Char} (h : AllBlank pre) (text : List Char) :
    collapseBlanks (pre ++ text) = collapseBlanks text := by
  induction pre with
  | nil => rfl
  | cons c pre ih =>
    obtain ⟨hc, hpre⟩ := List.forall_mem_cons.mp h
    rw [← ih hpre, List.cons_append, collapseBlanks, collapseBlanks, words_cons_blank hc]

/-- A text with more than white space in it, cut behind the white space at its start. -/
theorem exists_blanks_of_collapseBlanks {text : List Char} (h : collapseBlanks text ≠ []) :
    ∃ blanks part, text = blanks ++ part ∧ AllBlank blanks ∧ part ≠ [] ∧ trimStart text = part ∧
      trimStart part = part := by
  have hne : trimStart text ≠ [] := by
    intro hnil
    have hblank : AllBlank text := fun c hc => List.dropWhile_eq_nil_iff.mp hnil c hc
    apply h
    rw [← List.append_nil text, collapseBlanks_append_blank hblank]
    rfl
  refine ⟨text.takeWhile isBlank, trimStart text, List.takeWhile_append_dropWhile.symm,
    fun a ha => List.all_eq_true.mp List.all_takeWhile a ha, hne, rfl, ?_⟩
  rw [trimStart, trimStart, List.dropWhile_idempotent]

/-- The words of a text hold all that is not white space. -/
theorem flatten_words (text : List Char) : (words text).flatten = text.filter (!isBlank ·) := by
  have hfrom : ∀ offset, ((wordsFrom offset text).map Prod.snd).flatten =
      text.filter (!isBlank ·) := by
    induction text with
    | nil => exact fun _ => rfl
    | cons c cs ih =>
      intro offset
      have hlater := ih (offset + c.utf8Size)
      simp only [wordsFrom]
      split
      · next hc => rw [hlater, List.filter_cons_of_neg (by simpa using hc)]
      · next hc =>
        rw [List.filter_cons_of_pos (by simpa using hc), ← hlater]
        generalize wordsFrom (offset + c.utf8Size) cs = later
        split
        · split <;> rfl
        · rfl
  exact hfrom 0

end Words

end Concordance.Text
