import Mathlib.Data.List.Basic
import Concordance.Keyed

/-!
Laws of the lists with keys: what is kept of an appended list, and when a list is kept as it is.

Main statements: `firstPerKey_append_of_covered` (values whose keys are taken add nothing),
`firstPerKey_firstPerKey_append` (values that were not kept add nothing later),
`find?_of_mem_firstPerKey` (a value that is kept is the first with its key), `pairwise_idxOf_firstPerKey`
(values are kept where they come first), `pairwise_dropRepeats` (a sorted list without its repeats is
strictly sorted) and `filter_mergeSort` (a stable sort keeps the order of any part of the list).
-/

namespace Concordance

section FirstPerKey

variable {α κ : Type} [BEq κ] [LawfulBEq κ] (key : α → κ)

/-- Every key is taken before or stands in the result. -/
theorem key_mem_firstPerKey (seen : List κ) {xs : List α} {a : α} (ha : a ∈ xs) :
    key a ∈ seen ∨ key a ∈ (firstPerKey key seen xs).map key := by
  induction xs generalizing seen with
  | nil => simp at ha
  | cons b rest ih =>
    unfold firstPerKey
    split
    · next hb =>
      rcases List.mem_cons.mp ha with rfl | ha
      · exact Or.inl (by simpa using hb)
      · exact ih seen ha
    · rcases List.mem_cons.mp ha with rfl | ha
      · exact Or.inr (by simp)
      · rcases ih (key b :: seen) ha with hseen | hkept
        · rcases List.mem_cons.mp hseen with hkey | hseen
          · exact Or.inr (by simp [hkey])
          · exact Or.inl hseen
        · exact Or.inr (List.mem_cons_of_mem _ hkept)

/-- Values whose keys are all taken add nothing. -/
theorem firstPerKey_of_covered {seen : List κ} {ys : List α} (h : ∀ a ∈ ys, key a ∈ seen) :
    firstPerKey key seen ys = [] := by
  induction ys with
  | nil => rfl
  | cons b rest ih =>
    have hb : seen.contains (key b) = true := by simpa using h b List.mem_cons_self
    rw [firstPerKey, if_pos hb]
    exact ih fun a ha => h a (List.mem_cons_of_mem b ha)

theorem firstPerKey_append_of_covered {seen : List κ} {xs ys : List α}
    (h : ∀ a ∈ ys, key a ∈ seen ∨ ∃ b ∈ xs, key b = key a) :
    firstPerKey key seen (xs ++ ys) = firstPerKey key seen xs := by
  induction xs generalizing seen with
  | nil => exact firstPerKey_of_covered key fun a ha => (h a ha).resolve_right (by simp)
  | cons b rest ih =>
    simp only [List.cons_append, firstPerKey]
    split
    · next hb =>
      apply ih
      intro a ha
      rcases h a ha with hseen | ⟨c, hc, hkey⟩
      · exact Or.inl hseen
      · rcases List.mem_cons.mp hc with rfl | hc
        · exact Or.inl (by rw [← hkey]; simpa using hb)
        · exact Or.inr ⟨c, hc, hkey⟩
    · congr 1
      apply ih
      intro a ha
      rcases h a ha with hseen | ⟨c, hc, hkey⟩
      · exact Or.inl (List.mem_cons_of_mem _ hseen)
      · rcases List.mem_cons.mp hc with rfl | hc
        · exact Or.inl (by rw [← hkey]; exact List.mem_cons_self)
        · exact Or.inr ⟨c, hc, hkey⟩

omit [LawfulBEq κ] in
theorem firstPerKey_sublist (seen : List κ) (xs : List α) : (firstPerKey key seen xs).Sublist xs := by
  induction xs generalizing seen with
  | nil => exact List.Sublist.refl _
  | cons b rest ih =>
    unfold firstPerKey
    split
    · exact (ih seen).cons b
    · exact (ih _).cons_cons b

/-- A key stands in the result exactly if some value has it. -/
theorem key_mem_map_firstPerKey_iff {xs : List α} {k : κ} :
    k ∈ (firstPerKey key [] xs).map key ↔ k ∈ xs.map key := by
  constructor
  · exact fun h => ((firstPerKey_sublist key [] xs).map key).subset h
  · intro h
    obtain ⟨a, ha, rfl⟩ := List.mem_map.mp h
    exact (key_mem_firstPerKey key [] ha).resolve_left List.not_mem_nil

/-- A value with a new key is kept behind the others. -/
theorem firstPerKey_concat_of_fresh {seen : List κ} {xs : List α} {a : α} (hseen : key a ∉ seen)
    (hxs : key a ∉ xs.map key) : firstPerKey key seen (xs ++ [a]) = firstPerKey key seen xs ++ [a] := by
  induction xs generalizing seen with
  | nil => simp [firstPerKey, hseen]
  | cons b rest ih =>
    rw [List.map_cons, List.mem_cons, not_or] at hxs
    simp only [List.cons_append, firstPerKey]
    split
    · exact ih hseen hxs.2
    · rw [ih (by simp [hseen, hxs.1]) hxs.2, List.cons_append]

/-- Values that come first with distinct keys are kept, and behind them some of those that follow. -/
theorem exists_firstPerKey_append {xs : List α} (hnodup : (xs.map key).Nodup) (ys : List α) :
    ∃ zs, firstPerKey key [] (xs ++ ys) = xs ++ zs ∧ zs.Sublist ys := by
  suffices hseen : ∀ seen : List κ, (∀ a ∈ xs, key a ∉ seen) →
      ∃ zs, firstPerKey key seen (xs ++ ys) = xs ++ zs ∧ zs.Sublist ys from
    hseen [] fun _ _ => List.not_mem_nil
  induction xs with
  | nil => exact fun seen _ => ⟨_, rfl, firstPerKey_sublist key seen ys⟩
  | cons b rest ih =>
    intro seen hseen
    obtain ⟨hb, hrest⟩ := List.nodup_cons.mp hnodup
    have hnew : ∀ a ∈ rest, key a ∉ key b :: seen := by
      intro a ha hmem
      rcases List.mem_cons.mp hmem with heq | hmem
      · exact hb (heq ▸ List.mem_map_of_mem ha)
      · exact hseen a (List.mem_cons_of_mem b ha) hmem
    obtain ⟨zs, hzs, hsublist⟩ := ih hrest (key b :: seen) hnew
    refine ⟨zs, ?_, hsublist⟩
    rw [List.cons_append, firstPerKey, if_neg (by simpa using hseen b List.mem_cons_self), hzs,
      List.cons_append]

omit [LawfulBEq κ] in
/-- Of the values that are kept, those of a first kind do not depend on later ones of another. -/
theorem filter_firstPerKey_append {p : α → Bool} {seen : List κ} {xs ys : List α}
    (hxs : ∀ a ∈ xs, p a = true) (hys : ∀ a ∈ ys, p a = false) :
    (firstPerKey key seen (xs ++ ys)).filter p = firstPerKey key seen xs := by
  induction xs generalizing seen with
  | nil =>
    refine List.filter_eq_nil_iff.mpr fun a ha => ?_
    rw [hys a (mem_of_mem_firstPerKey key ha)]
    exact Bool.false_ne_true
  | cons b rest ih =>
    obtain ⟨hb, hrest⟩ := List.forall_mem_cons.mp hxs
    simp only [List.cons_append, firstPerKey]
    split
    · exact ih hrest
    · rw [List.filter_cons_of_pos hb, ih hrest]

omit [LawfulBEq κ] in
/-- Values that were not kept add nothing when more follow. -/
theorem firstPerKey_firstPerKey_append (seen : List κ) (xs ys : List α) :
    firstPerKey key seen (firstPerKey key seen xs ++ ys) = firstPerKey key seen (xs ++ ys) := by
  induction xs generalizing seen with
  | nil => rfl
  | cons b rest ih =>
    by_cases hb : seen.contains (key b) = true
    · simpa only [List.cons_append, firstPerKey, if_pos hb] using ih seen
    · simpa only [List.cons_append, firstPerKey, if_neg hb, List.cons.injEq, true_and] using
        ih (key b :: seen)

/-- A value that is kept is the first one with its key. -/
theorem find?_of_mem_firstPerKey {seen : List κ} {xs : List α} {a : α}
    (h : a ∈ firstPerKey key seen xs) : xs.find? (fun b => key b == key a) = some a := by
  induction xs generalizing seen with
  | nil => simp [firstPerKey] at h
  | cons b rest ih =>
    have hne : key b ∈ seen → key b ≠ key a := fun hb heq =>
      key_notMem_seen key h (heq ▸ hb)
    unfold firstPerKey at h
    split at h
    · next hb =>
      rw [List.find?_cons_of_neg (by simpa using hne (by simpa using hb))]
      exact ih h
    · rcases List.mem_cons.mp h with rfl | h
      · exact List.find?_cons_of_pos (beq_self_eq_true _)
      · have hlater : key b ≠ key a := fun heq =>
          key_notMem_seen key h (heq ▸ List.mem_cons_self)
        rw [List.find?_cons_of_neg (by simpa using hlater)]
        exact ih h

/-- Each value of a kind stands in the order in which it comes first. -/
theorem pairwise_idxOf_firstPerKey [BEq α] [LawfulBEq α] (p : α → Bool) (seen xs : List α) :
    (firstPerKey id seen (xs.filter p)).Pairwise fun a b => xs.idxOf a < xs.idxOf b := by
  induction xs generalizing seen with
  | nil => exact List.Pairwise.nil
  | cons b rest ih =>
    -- values other than the first of the list stand one place further back than in the rest
    have hshift : ∀ seen', (∀ a ∈ firstPerKey id seen' (rest.filter p), a ≠ b) →
        (firstPerKey id seen' (rest.filter p)).Pairwise
          fun a c => (b :: rest).idxOf a < (b :: rest).idxOf c := by
      intro seen' hne
      apply (ih seen').imp_of_mem
      intro a c ha hc hlt
      rw [List.idxOf_cons_ne _ (hne a ha).symm, List.idxOf_cons_ne _ (hne c hc).symm]
      exact Nat.succ_lt_succ hlt
    by_cases hb : p b = true
    · rw [List.filter_cons_of_pos hb, firstPerKey]
      split
      · next hseen =>
        apply hshift
        rintro a ha rfl
        exact key_notMem_seen id ha (by simpa using hseen)
      · have hne : ∀ a ∈ firstPerKey id (b :: seen) (rest.filter p), a ≠ b := by
          rintro a ha rfl
          exact key_notMem_seen id ha List.mem_cons_self
        refine List.pairwise_cons.mpr ⟨?_, hshift _ hne⟩
        intro a ha
        rw [List.idxOf_cons_self, List.idxOf_cons_ne _ (hne a ha).symm]
        exact Nat.succ_pos _
    · rw [List.filter_cons_of_neg hb]
      apply hshift
      rintro a ha rfl
      exact hb (List.mem_filter.mp (mem_of_mem_firstPerKey id ha)).2

end FirstPerKey

section DropRepeats

variable {α : Type} [BEq α] [LawfulBEq α]

@[simp] theorem mem_dropRepeats {xs : List α} {a : α} : a ∈ dropRepeats xs ↔ a ∈ xs := by
  induction xs using dropRepeats.induct with
  | case1 => simp [dropRepeats]
  | case2 b => simp [dropRepeats]
  | case3 b c rest hbc ih =>
    have hbc : b = c := by simpa using hbc
    subst hbc
    simp [dropRepeats, ih]
  | case4 b c rest hbc ih => simp [dropRepeats, hbc, ih]

/-- A sorted list without its repeats is strictly sorted. -/
theorem pairwise_dropRepeats {le : α → α → Bool} (hanti : ∀ a b, le a b → le b a → a = b)
    {xs : List α} (h : xs.Pairwise fun a b => le a b) :
    (dropRepeats xs).Pairwise fun a b => le a b ∧ a ≠ b := by
  induction xs using dropRepeats.induct with
  | case1 => simp [dropRepeats]
  | case2 b => simp [dropRepeats]
  | case3 b c rest hbc ih =>
    rw [dropRepeats, if_pos hbc]
    exact ih (List.pairwise_cons.mp h).2
  | case4 b c rest hbc ih =>
    have hne : b ≠ c := by simpa using hbc
    obtain ⟨hb, htail⟩ := List.pairwise_cons.mp h
    rw [dropRepeats, if_neg hbc]
    refine List.pairwise_cons.mpr ⟨?_, ih htail⟩
    intro a ha
    rw [mem_dropRepeats] at ha
    refine ⟨hb a ha, ?_⟩
    rintro rfl
    rcases List.mem_cons.mp ha with rfl | ha
    · exact hne rfl
    · exact hne (hanti b c (hb c List.mem_cons_self)
        ((List.pairwise_cons.mp htail).1 b ha))

end DropRepeats

section Sorted

variable {α : Type}

/-- A list whose front satisfies a property and whose back does not is divided in one way. -/
theorem append_inj_of_all {q : α → Bool} {xs ys xs' ys' : List α} (h : xs ++ ys = xs' ++ ys')
    (hxs : ∀ a ∈ xs, q a = true) (hys : ∀ a ∈ ys, q a = false) (hxs' : ∀ a ∈ xs', q a = true)
    (hys' : ∀ a ∈ ys', q a = false) : xs = xs' ∧ ys = ys' := by
  have hfront : ∀ {xs ys : List α}, (∀ a ∈ xs, q a = true) → (∀ a ∈ ys, q a = false) →
      (xs ++ ys).takeWhile q = xs := by
    intro xs ys hxs hys
    rw [List.takeWhile_append_of_pos hxs]
    cases ys with
    | nil => simp
    | cons a ys =>
      rw [List.takeWhile_cons_of_neg (by simp [hys a List.mem_cons_self]), List.append_nil]
  have hsame : xs = xs' := by rw [← hfront hxs hys, h, hfront hxs' hys']
  subst hsame
  exact ⟨rfl, List.append_cancel_left h⟩

/-- A part of a sorted list is that part of the list, sorted. -/
theorem filter_mergeSort {le : α → α → Bool}
    (htrans : ∀ a b c, le a b = true → le b c = true → le a c = true)
    (htotal : ∀ a b, (le a b || le b a) = true) (p : α → Bool) (xs : List α) :
    (xs.mergeSort le).filter p = (xs.filter p).mergeSort le := by
  induction xs with
  | nil => simp
  | cons a xs ih =>
    obtain ⟨lower, upper, hall, hrest, hlower⟩ := List.mergeSort_cons htrans htotal a xs
    have hupper : ∀ b ∈ upper, le a b = true := by
      have hsorted := List.pairwise_mergeSort htrans htotal (a :: xs)
      rw [hall] at hsorted
      exact (List.pairwise_cons.mp (List.pairwise_append.mp hsorted).2.1).1
    by_cases ha : p a = true
    · obtain ⟨lower', upper', hall', hrest', hlower'⟩ :=
        List.mergeSort_cons htrans htotal a (xs.filter p)
      have hupper' : ∀ b ∈ upper', le a b = true := by
        have hsorted := List.pairwise_mergeSort htrans htotal (a :: xs.filter p)
        rw [hall'] at hsorted
        exact (List.pairwise_cons.mp (List.pairwise_append.mp hsorted).2.1).1
      have hsame : lower.filter p ++ upper.filter p = lower' ++ upper' := by
        rw [← List.filter_append, ← hrest, ih, hrest']
      obtain ⟨hfront, hback⟩ := append_inj_of_all (q := fun b => !le a b) hsame
        (fun b hb => hlower b (List.mem_of_mem_filter hb))
        (fun b hb => by simp [hupper b (List.mem_of_mem_filter hb)]) hlower'
        (fun b hb => by simp [hupper' b hb])
      rw [hall, List.filter_append, List.filter_cons_of_pos ha, List.filter_cons_of_pos ha, hall',
        hfront, hback]
    · rw [hall, List.filter_append, List.filter_cons_of_neg ha, List.filter_cons_of_neg ha,
        ← List.filter_append, ← hrest, ih]

end Sorted

end Concordance
