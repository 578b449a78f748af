import Concordance.Entry.Basic
import Concordance.Proofs.Keyed
import Concordance.Proofs.Text.Order
import Concordance.Proofs.Text.Trim

/-!
What merged entries consist of.

Merging by text is the sorted set of the trimmed texts, so it depends on that set only. Merging by
path gives a reading for each path, in the order of the paths, and the texts that write no entry. Main
statements: `mergeExact_congr`, `mergeExact_mergeExact_append` and `mergeByPath_eq`.
-/

namespace Concordance

open Text

namespace Entry

section Cleaned

variable {xs ys : List (List Char)} {t : List Char}

@[simp] theorem cleaned_append (xs ys : List (List Char)) :
    cleaned (xs ++ ys) = cleaned xs ++ cleaned ys := by
  simp [cleaned]

theorem mem_cleaned : t ∈ cleaned xs ↔ (∃ x ∈ xs, trim x = t) ∧ t ≠ [] := by
  simp [cleaned]

/-- The text is trimmed and not empty. -/
def Clean (t : List Char) : Prop :=
  trim t = t ∧ t ≠ []

instance (t : List Char) : Decidable (Clean t) :=
  inferInstanceAs (Decidable (trim t = t ∧ t ≠ []))

theorem clean_of_mem_cleaned (h : t ∈ cleaned xs) : Clean t := by
  obtain ⟨⟨x, -, rfl⟩, hne⟩ := mem_cleaned.mp h
  exact ⟨trim_trim x, hne⟩

theorem cleaned_of_clean (h : ∀ t ∈ xs, Clean t) : cleaned xs = xs := by
  induction xs with
  | nil => rfl
  | cons x xs ih =>
    obtain ⟨htrim, hne⟩ := h x List.mem_cons_self
    have htail := ih fun t ht => h t (List.mem_cons_of_mem x ht)
    simp only [cleaned, List.map_cons] at htail ⊢
    rw [List.filter_cons_of_pos (by simpa [htrim] using hne), htail, htrim]

end Cleaned

section Exact

theorem SortKey.upTo_total (a b : SortKey) : a.upTo b = true ∨ b.upTo a = true := by
  obtain ⟨ua, pa, la, ta⟩ := a
  obtain ⟨ub, pb, lb, tb⟩ := b
  have hpath := Text.upTo_total pa pb
  have htext := Text.upTo_total ta tb
  unfold SortKey.upTo
  grind

theorem SortKey.upTo_trans (a b c : SortKey) (hab : a.upTo b = true) (hbc : b.upTo c = true) :
    a.upTo c = true := by
  obtain ⟨ua, pa, la, ta⟩ := a
  obtain ⟨ub, pb, lb, tb⟩ := b
  obtain ⟨uc, pc, lc, tc⟩ := c
  have hpath : Text.upTo pa pb = true → Text.upTo pb pc = true → Text.upTo pa pc = true :=
    Text.upTo_trans
  have hback : Text.upTo pa pb = true → Text.upTo pb pa = true → pa = pb := Text.upTo_antisymm
  have htext : Text.upTo ta tb = true → Text.upTo tb tc = true → Text.upTo ta tc = true :=
    Text.upTo_trans
  unfold SortKey.upTo at hab hbc ⊢
  grind

theorem SortKey.upTo_antisymm (a b : SortKey) (hab : a.upTo b = true) (hba : b.upTo a = true) :
    a = b := by
  obtain ⟨ua, pa, la, ta⟩ := a
  obtain ⟨ub, pb, lb, tb⟩ := b
  have hpath : Text.upTo pa pb = true → Text.upTo pb pa = true → pa = pb := Text.upTo_antisymm
  have htext : Text.upTo ta tb = true → Text.upTo tb ta = true → ta = tb := Text.upTo_antisymm
  unfold SortKey.upTo at hab hba
  grind

theorem text_sortKey (t : List Char) : (sortKey t).text = t := by
  unfold sortKey
  split <;> rfl

/-- A text stands in the merge exactly if it is one of the trimmed texts. -/
theorem mem_mergeExact {xs : List (List Char)} {t : List Char} :
    t ∈ mergeExact xs ↔ t ∈ cleaned xs := by
  simp [mergeExact, text_sortKey]

/-- The merge is strictly sorted by the keys of the texts. -/
theorem pairwise_mergeExact (xs : List (List Char)) :
    (mergeExact xs).Pairwise fun a b => (sortKey a).upTo (sortKey b) = true ∧ a ≠ b := by
  apply pairwise_dropRepeats
  · intro a b hab hba
    have hkey := SortKey.upTo_antisymm _ _ hab hba
    rw [← text_sortKey a, hkey, text_sortKey]
  · rw [List.pairwise_map]
    have hsorted := List.pairwise_mergeSort SortKey.upTo_trans
      (fun a b => by simpa using SortKey.upTo_total a b) ((cleaned xs).map sortKey)
    apply hsorted.imp_of_mem
    intro a b ha hb hab
    obtain ⟨x, -, rfl⟩ := List.mem_map.mp (List.mem_mergeSort.mp ha)
    obtain ⟨y, -, rfl⟩ := List.mem_map.mp (List.mem_mergeSort.mp hb)
    rw [text_sortKey, text_sortKey]
    exact hab

/-- The merge is the strictly sorted list of the trimmed texts. -/
theorem mergeExact_eq_of_sorted {xs ys : List (List Char)}
    (hys : ys.Pairwise fun a b => (sortKey a).upTo (sortKey b) = true ∧ a ≠ b)
    (h : ∀ t, t ∈ cleaned xs ↔ t ∈ ys) : mergeExact xs = ys := by
  have hxs := pairwise_mergeExact xs
  have hperm : (mergeExact xs).Perm ys := by
    rw [List.perm_ext_iff_of_nodup (hxs.imp And.right) (hys.imp And.right)]
    intro t
    rw [mem_mergeExact, h t]
  apply hperm.eq_of_pairwise _ (hxs.imp And.left) (hys.imp And.left)
  intro a b _ _ hab hba
  rw [← text_sortKey a, SortKey.upTo_antisymm _ _ hab hba, text_sortKey]

/-- Merging by text depends on the set of the trimmed texts only. -/
theorem mergeExact_congr {xs ys : List (List Char)}
    (h : ∀ t, t ∈ cleaned xs ↔ t ∈ cleaned ys) : mergeExact xs = mergeExact ys :=
  mergeExact_eq_of_sorted (pairwise_mergeExact ys) fun t => by rw [h t, mem_mergeExact]

/-- Texts that were merged by text before others are merged with them as they first came. -/
theorem mergeExact_mergeExact_append (xs ys : List (List Char)) :
    mergeExact (mergeExact xs ++ ys) = mergeExact (xs ++ ys) := by
  apply mergeExact_congr
  intro t
  have hmerged : cleaned (mergeExact xs) = mergeExact xs :=
    cleaned_of_clean fun t ht => clean_of_mem_cleaned (mem_mergeExact.mp ht)
  rw [cleaned_append, hmerged, List.mem_append, mem_mergeExact, cleaned_append, List.mem_append]

/-- Texts that come again change nothing in a merge by text. -/
theorem mergeExact_append_again (xs ys : List (List Char)) :
    mergeExact (xs ++ ys ++ ys) = mergeExact (xs ++ ys) := by
  apply mergeExact_congr
  intro t
  simp only [cleaned_append, List.mem_append]
  tauto

end Exact

section ByPath

theorem foldl_better_mem (a : Read) (rs : List Read) : rs.foldl better a ∈ a :: rs := by
  induction rs generalizing a with
  | nil => simp
  | cons r rs ih =>
    have hmem := ih (better a r)
    rw [List.foldl_cons]
    rcases List.mem_cons.mp hmem with heq | hmem
    · rw [heq, better]
      split <;> simp
    · exact List.mem_cons_of_mem _ (List.mem_cons_of_mem _ hmem)

theorem mem_readable {texts : List (List Char)} {r : Read} :
    r ∈ readable texts ↔ r.text ∈ texts ∧ parse? r.text = some r.entry := by
  simp only [readable, List.mem_filterMap, Option.map_eq_some_iff]
  constructor
  · rintro ⟨t, ht, e, he, rfl⟩
    exact ⟨ht, he⟩
  · rintro ⟨ht, he⟩
    exact ⟨r.text, ht, r.entry, he, rfl⟩

@[simp] theorem readable_append (xs ys : List (List Char)) :
    readable (xs ++ ys) = readable xs ++ readable ys := by
  simp [readable]

/-- Texts of readings are read back. -/
theorem readable_map_text {rs : List Read} (h : ∀ r ∈ rs, parse? r.text = some r.entry) :
    readable (rs.map Read.text) = rs := by
  induction rs with
  | nil => rfl
  | cons r rs ih =>
    have hr := h r List.mem_cons_self
    have htail := ih fun r' hr' => h r' (List.mem_cons_of_mem r hr')
    simp only [readable, List.map_cons] at htail ⊢
    rw [List.filterMap_cons_some (b := r) (by rw [hr]; rfl), htail]

theorem readable_of_unread {texts : List (List Char)} (h : ∀ t ∈ texts, parse? t = none) :
    readable texts = [] := by
  simpa [readable] using h

/-- The best text for a path is one of those offered, for the same path. -/
theorem bestFor_mem {all : List Read} {first : Read} (h : first ∈ all) :
    bestFor all first ∈ all ∧ (bestFor all first).entry.path = first.entry.path := by
  rcases List.mem_cons.mp (foldl_better_mem first
      (all.filter (·.entry.path == first.entry.path))) with heq | hmem
  · exact ⟨by rw [bestFor, heq]; exact h, by rw [bestFor, heq]⟩
  · obtain ⟨hmem, hpath⟩ := List.mem_filter.mp hmem
    exact ⟨hmem, beq_iff_eq.mp hpath⟩

/-- The readings that a merge by path keeps, in the order of their paths. -/
def bests (all : List Read) : List Read :=
  ((firstPerKey (·.entry.path) [] all).mergeSort
    fun a b => Text.upTo a.entry.path b.entry.path).map (bestFor all)

/-- The texts that a merge by path keeps as they are. -/
def unread (texts : List (List Char)) : List (List Char) :=
  firstPerKey id [] (texts.filter fun t => (parse? t).isNone)

theorem mergeByPath_eq (texts : List (List Char)) :
    mergeByPath texts =
      (bests (readable (cleaned texts))).map Read.text ++ unread (cleaned texts) := by
  simp [mergeByPath, bests, unread]

theorem mem_of_mem_bests {all : List Read} {b : Read} (h : b ∈ bests all) :
    b ∈ all ∧ ∃ first ∈ all, b = bestFor all first := by
  obtain ⟨first, hfirst, rfl⟩ := List.mem_map.mp h
  have hall := mem_of_mem_firstPerKey _ (List.mem_mergeSort.mp hfirst)
  exact ⟨(bestFor_mem hall).1, first, hall, rfl⟩

/-- The kept readings have the paths of the first ones. -/
theorem paths_bests (all : List Read) :
    (bests all).map (·.entry.path) =
      ((firstPerKey (·.entry.path) [] all).mergeSort
        fun a b => Text.upTo a.entry.path b.entry.path).map (·.entry.path) := by
  rw [bests, List.map_map]
  apply List.map_congr_left
  intro first hfirst
  exact (bestFor_mem (mem_of_mem_firstPerKey _ (List.mem_mergeSort.mp hfirst))).2

theorem nodup_paths_bests (all : List Read) : ((bests all).map (·.entry.path)).Nodup := by
  rw [paths_bests]
  exact ((List.mergeSort_perm _ _).map _).nodup_iff.mpr (nodup_map_firstPerKey _ [] all)

theorem pairwise_bests (all : List Read) :
    (bests all).Pairwise fun a b => Text.upTo a.entry.path b.entry.path = true := by
  have htrans : ∀ a b c : Read, Text.upTo a.entry.path b.entry.path = true →
      Text.upTo b.entry.path c.entry.path = true →
        Text.upTo a.entry.path c.entry.path = true :=
    fun _ _ _ hab hbc => Text.upTo_trans hab hbc
  have htotal : ∀ a b : Read,
      (Text.upTo a.entry.path b.entry.path || Text.upTo b.entry.path a.entry.path) = true :=
    fun a b => by simpa using Text.upTo_total a.entry.path b.entry.path
  have hsorted := List.pairwise_mergeSort htrans htotal (firstPerKey (·.entry.path) [] all)
  have hpaths : ((bests all).map (·.entry.path)).Pairwise fun a b => Text.upTo a b = true := by
    rw [paths_bests, List.pairwise_map]
    exact hsorted
  rwa [List.pairwise_map] at hpaths

theorem path_mem_bests {all : List Read} {r : Read} (h : r ∈ all) :
    ∃ b ∈ bests all, b.entry.path = r.entry.path := by
  have hmem : r.entry.path ∈ (bests all).map (·.entry.path) := by
    rw [paths_bests]
    have hkept := (key_mem_firstPerKey (·.entry.path) [] h).resolve_left (by simp)
    exact ((List.mergeSort_perm _ _).map _).mem_iff.mpr hkept
  obtain ⟨b, hb, hpath⟩ := List.mem_map.mp hmem
  exact ⟨b, hb, hpath⟩

/-- Of readings with distinct paths one has the path of a given one. -/
theorem filter_path_of_nodup {rs : List Read} (hnodup : (rs.map (·.entry.path)).Nodup)
    {b : Read} (hb : b ∈ rs) : rs.filter (·.entry.path == b.entry.path) = [b] := by
  induction rs with
  | nil => simp at hb
  | cons r rs ih =>
    rw [List.map_cons, List.nodup_cons] at hnodup
    rcases List.mem_cons.mp hb with rfl | hb
    · rw [List.filter_cons_of_pos (by simp), List.filter_eq_nil_iff.mpr]
      intro r hr hpath
      exact hnodup.1 (List.mem_map.mpr ⟨r, hr, by simpa using hpath⟩)
    · have hne : ¬ (r.entry.path == b.entry.path) = true := by
        intro hpath
        exact hnodup.1 (List.mem_map.mpr ⟨b, hb, by simpa using (beq_iff_eq.mp hpath).symm⟩)
      rw [List.filter_cons_of_neg (p := fun x : Read => x.entry.path == b.entry.path) hne]
      exact ih hnodup.2 hb

theorem mem_unread {texts : List (List Char)} {t : List Char} :
    t ∈ unread texts ↔ t ∈ texts ∧ parse? t = none := by
  constructor
  · intro h
    simpa using mem_of_mem_firstPerKey id h
  · intro h
    have hmem : t ∈ texts.filter fun t => (parse? t).isNone := by simpa using h
    simpa [unread] using key_mem_firstPerKey id [] hmem

theorem mem_cleaned_of_mem_mergeByPath {xs : List (List Char)} {t : List Char}
    (h : t ∈ mergeByPath xs) : t ∈ cleaned xs := by
  rw [mergeByPath_eq, List.mem_append] at h
  rcases h with h | h
  · obtain ⟨b, hb, rfl⟩ := List.mem_map.mp h
    exact (mem_readable.mp (mem_of_mem_bests hb).1).1
  · exact (mem_unread.mp h).1

end ByPath

end Entry

end Concordance
