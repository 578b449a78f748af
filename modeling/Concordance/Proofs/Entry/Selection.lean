import Mathlib.Data.List.Sort
import Concordance.Proofs.Entry.Merge

/-!
What a merge of entries selects.

A merge by path goes through the texts once and keeps a best reading for each path. What it ends with
can be said without the run: for each path, in the order of the bytes, the last of the readings with
the most lines, and then the texts that write no entry, each where it stands first. This determines
the result (`mergeByPath_eq_iff`), and since it is not changed by leaving out readings that were not
selected, texts may be merged in two steps or come again (`merge_repeated_and_exact_set`).
-/

namespace Concordance.Entry

open Text

section LastMost

variable {all xs ys : List Read} {r s : Read}

/-- The reading is the last of those with the most lines for its path. -/
def LastMost (all : List Read) (r : Read) : Prop :=
  ∃ before after, all = before ++ r :: after ∧
    (∀ o ∈ before, o.entry.path = r.entry.path → o.entry.lines.length ≤ r.entry.lines.length) ∧
    ∀ o ∈ after, o.entry.path = r.entry.path → o.entry.lines.length < r.entry.lines.length

theorem LastMost.mem (h : LastMost all r) : r ∈ all := by
  obtain ⟨before, after, rfl, -⟩ := h
  simp

theorem lastMost_singleton (r : Read) : LastMost [r] r :=
  ⟨[], [], rfl, by simp, by simp⟩

theorem LastMost.le (h : LastMost all r) (hs : s ∈ all) (hpath : s.entry.path = r.entry.path) :
    s.entry.lines.length ≤ r.entry.lines.length := by
  obtain ⟨before, after, rfl, hbefore, hafter⟩ := h
  rcases List.mem_append.mp hs with hs | hs
  · exact hbefore s hs hpath
  · rcases List.mem_cons.mp hs with rfl | hs
    · exact Nat.le_refl _
    · exact Nat.le_of_lt (hafter s hs hpath)

/-- For one path there is one such reading. -/
theorem LastMost.unique (hr : LastMost all r) (hs : LastMost all s)
    (hpath : r.entry.path = s.entry.path) : r = s := by
  obtain ⟨before, after, hall, hbefore, hafter⟩ := hr
  obtain ⟨before', after', hall', hbefore', hafter'⟩ := hs
  rcases List.append_eq_append_iff.mp (hall.symm.trans hall') with
    ⟨between, hfront, hback⟩ | ⟨between, hfront, hback⟩
  · cases between with
    | nil => exact (List.cons.inj hback).1
    | cons o between =>
      obtain ⟨rfl, rfl⟩ := List.cons.inj hback
      have hle := hbefore' r (by simp [hfront]) hpath
      have hlt := hafter s (by simp) hpath.symm
      omega
  · cases between with
    | nil => exact (List.cons.inj hback).1.symm
    | cons o between =>
      obtain ⟨rfl, rfl⟩ := List.cons.inj hback
      have hle := hbefore s (by simp [hfront]) hpath.symm
      have hlt := hafter' r (by simp) hpath
      omega

/-- Of two lists one behind the other, the reading stands in the second and is not outnumbered in the
first, or it stands in the first and has more lines than any in the second. -/
theorem lastMost_append_iff :
    LastMost (xs ++ ys) r ↔
      LastMost xs r ∧ (∀ o ∈ ys, o.entry.path = r.entry.path →
        o.entry.lines.length < r.entry.lines.length) ∨
      LastMost ys r ∧ ∀ o ∈ xs, o.entry.path = r.entry.path →
        o.entry.lines.length ≤ r.entry.lines.length := by
  constructor
  · rintro ⟨before, after, hall, hbefore, hafter⟩
    rcases List.append_eq_append_iff.mp hall with ⟨between, rfl, rfl⟩ | ⟨between, rfl, hback⟩
    · exact Or.inr ⟨⟨between, after, rfl, fun o ho => hbefore o (by simp [ho]), hafter⟩,
        fun o ho => hbefore o (by simp [ho])⟩
    · cases between with
      | nil =>
        refine Or.inr ⟨⟨[], after, hback.symm, by simp, hafter⟩, ?_⟩
        simpa using hbefore
      | cons o between =>
        obtain ⟨rfl, rfl⟩ := List.cons.inj hback
        exact Or.inl ⟨⟨before, between, rfl, hbefore, fun o ho => hafter o (by simp [ho])⟩,
          fun o ho => hafter o (by simp [ho])⟩
  · rintro (⟨⟨before, after, rfl, hbefore, hafter⟩, hys⟩ |
      ⟨⟨before, after, rfl, hbefore, hafter⟩, hxs⟩)
    · refine ⟨before, after ++ ys, by simp, hbefore, ?_⟩
      intro o ho
      exact (List.mem_append.mp ho).elim (hafter o) (hys o)
    · refine ⟨xs ++ before, after, by simp, ?_, hafter⟩
      intro o ho
      exact (List.mem_append.mp ho).elim (hxs o) (hbefore o)

/-- Going through readings for one path ends with the last of those with the most lines. -/
theorem lastMost_foldl_better (a : Read) (rs : List Read)
    (hpath : ∀ o ∈ rs, o.entry.path = a.entry.path) :
    LastMost (a :: rs) (rs.foldl better a) := by
  induction rs using List.reverseRecOn with
  | nil => exact lastMost_singleton a
  | append_singleton rs b ih =>
    have hlast := ih fun o ho => hpath o (by simp [ho])
    have hsame : ∀ o ∈ a :: rs, o.entry.path = (rs.foldl better a).entry.path := by
      have hall : ∀ o ∈ a :: rs, o.entry.path = a.entry.path :=
        List.forall_mem_cons.mpr ⟨rfl, fun o ho => hpath o (List.mem_append_left _ ho)⟩
      intro o ho
      rw [hall o ho, hall _ hlast.mem]
    rw [List.foldl_append, List.foldl_cons, List.foldl_nil, ← List.cons_append,
      lastMost_append_iff, better]
    split
    · next hlt => exact Or.inl ⟨hlast, by simpa using fun _ => hlt⟩
    · next hle =>
      refine Or.inr ⟨lastMost_singleton b, fun o ho _ => ?_⟩
      exact (hlast.le ho (hsame o ho)).trans (Nat.not_lt.mp hle)

/-- Readings for other paths have no part in the choice. -/
theorem lastMost_filter_iff :
    LastMost (all.filter (·.entry.path == r.entry.path)) r ↔ LastMost all r := by
  constructor
  · rintro ⟨before, after, hall, hbefore, hafter⟩
    obtain ⟨front, back, rfl, rfl, hback⟩ := List.filter_eq_append_iff.mp hall
    obtain ⟨skipped, rest, rfl, hskipped, -, rfl⟩ := List.filter_eq_cons_iff.mp hback
    refine ⟨front ++ skipped, rest, by simp, ?_, ?_⟩
    · intro o ho hpath
      rcases List.mem_append.mp ho with ho | ho
      · exact hbefore o (List.mem_filter.mpr ⟨ho, beq_iff_eq.mpr hpath⟩) hpath
      · exact absurd (beq_iff_eq.mpr hpath) (hskipped o ho)
    · exact fun o ho hpath => hafter o (List.mem_filter.mpr ⟨ho, beq_iff_eq.mpr hpath⟩) hpath
  · rintro ⟨before, after, rfl, hbefore, hafter⟩
    refine ⟨before.filter (·.entry.path == r.entry.path),
      after.filter (·.entry.path == r.entry.path), by simp, ?_, ?_⟩
    · exact fun o ho => hbefore o (List.mem_filter.mp ho).1
    · exact fun o ho => hafter o (List.mem_filter.mp ho).1

theorem lastMost_bestFor {first : Read} (h : first ∈ all) : LastMost all (bestFor all first) := by
  have hpath := (bestFor_mem h).2
  have hlast : LastMost (first :: all.filter (·.entry.path == first.entry.path))
      (bestFor all first) :=
    lastMost_foldl_better first _ fun o ho => beq_iff_eq.mp (List.mem_filter.mp ho).2
  rw [← lastMost_filter_iff, hpath]
  rw [← List.singleton_append, lastMost_append_iff] at hlast
  rcases hlast with ⟨hone, hmore⟩ | hlast
  · -- the first reading comes again in the list, so it has not more lines than all behind it
    have heq : bestFor all first = first := List.mem_singleton.mp hone.mem
    have hlt := hmore first (List.mem_filter.mpr ⟨h, by simp⟩) hpath.symm
    rw [heq] at hlt
    exact absurd hlt (Nat.lt_irrefl _)
  · exact hlast.1

end LastMost

section Selects

variable {all xs ys kept : List Read} {r : Read}

/-- The readings are, in the order of the bytes of their paths, the last of those with the most lines
for each path. -/
structure Selects (all kept : List Read) : Prop where
  ascending : kept.Pairwise fun a b => Digest.utf8 a.entry.path < Digest.utf8 b.entry.path
  covers : ∀ o ∈ all, ∃ r ∈ kept, r.entry.path = o.entry.path
  lastMost : ∀ r ∈ kept, LastMost all r

theorem Selects.mem_iff (h : Selects all kept) : r ∈ kept ↔ LastMost all r := by
  refine ⟨h.lastMost r, fun hr => ?_⟩
  obtain ⟨s, hs, hpath⟩ := h.covers r hr.mem
  rwa [(h.lastMost s hs).unique hr hpath] at hs

/-- Only one list of readings is selected. -/
theorem Selects.unique {kept' : List Read} (h : Selects all kept) (h' : Selects all kept') :
    kept = kept' := by
  have : Std.Asymm fun a b : Read => Digest.utf8 a.entry.path < Digest.utf8 b.entry.path :=
    ⟨fun _ _ => List.lt_asymm⟩
  apply h.ascending.eq_of_mem_iff h'.ascending
  intro r
  rw [h.mem_iff, h'.mem_iff]

theorem selects_bests (all : List Read) : Selects all (bests all) where
  ascending := by
    have hdistinct := List.pairwise_map.mp (nodup_paths_bests all)
    exact ((pairwise_bests all).and hdistinct).imp (Text.utf8_lt_iff _ _).mpr
  covers _ ho := path_mem_bests ho
  lastMost r hr := by
    obtain ⟨-, first, hfirst, rfl⟩ := mem_of_mem_bests hr
    exact lastMost_bestFor hfirst

/-- Selected readings have distinct paths, so each of them is selected from them again. -/
theorem Selects.lastMost_kept (h : Selects all kept) (hr : r ∈ kept) : LastMost kept r := by
  obtain ⟨before, after, rfl⟩ := List.append_of_mem hr
  obtain ⟨-, hafter, hbefore⟩ := List.pairwise_append.mp h.ascending
  refine ⟨before, after, rfl, ?_, ?_⟩
  · intro o ho hpath
    have hlt := hbefore o ho r List.mem_cons_self
    rw [hpath] at hlt
    exact absurd hlt (List.lt_irrefl _)
  · intro o ho hpath
    have hlt := (List.pairwise_cons.mp hafter).1 o ho
    rw [hpath] at hlt
    exact absurd hlt (List.lt_irrefl _)

/-- Readings that were not selected have no part in a later choice. -/
theorem bests_bests_append (xs ys : List Read) : bests (bests xs ++ ys) = bests (xs ++ ys) := by
  have hxs := selects_bests xs
  have hboth := selects_bests (xs ++ ys)
  refine (selects_bests _).unique ⟨hboth.ascending, ?_, ?_⟩
  · intro o ho
    apply hboth.covers
    exact List.mem_append.mpr ((List.mem_append.mp ho).imp_left fun ho => (hxs.lastMost o ho).mem)
  · intro r hr
    have hlast := hboth.lastMost r hr
    rw [lastMost_append_iff] at hlast ⊢
    rcases hlast with ⟨hlast, hys⟩ | ⟨hlast, hle⟩
    · exact Or.inl ⟨hxs.lastMost_kept (hxs.mem_iff.mpr hlast), hys⟩
    · exact Or.inr ⟨hlast, fun o ho => hle o (hxs.lastMost o ho).mem⟩

/-- Readings that come again change no choice. -/
theorem bests_append_again (xs ys : List Read) : bests (xs ++ ys ++ ys) = bests (xs ++ ys) := by
  have hboth := selects_bests (xs ++ ys)
  refine (selects_bests _).unique ⟨hboth.ascending, ?_, ?_⟩
  · intro o ho
    exact hboth.covers o ((List.mem_append.mp ho).elim id (List.mem_append_right xs))
  · intro r hr
    have hlast := hboth.lastMost r hr
    rcases lastMost_append_iff.mp hlast with ⟨-, hys⟩ | ⟨hys, -⟩
    · exact lastMost_append_iff.mpr (Or.inl ⟨hlast, hys⟩)
    · exact lastMost_append_iff.mpr (Or.inr ⟨hys, fun o ho hpath => hlast.le ho hpath⟩)

end Selects

section Leftover

variable {texts rest : List (List Char)}

/-- The texts of `rest` are those that are not empty and write no entry, each once, in the order in
which they come first. -/
structure Leftover (texts rest : List (List Char)) : Prop where
  mem_iff : ∀ t, t ∈ rest ↔ t ∈ texts ∧ t ≠ [] ∧ parse? t = none
  ascending : rest.Pairwise fun a b => texts.idxOf a < texts.idxOf b

theorem Leftover.unique {rest' : List (List Char)} (h : Leftover texts rest)
    (h' : Leftover texts rest') : rest = rest' := by
  have : Std.Asymm fun a b => texts.idxOf a < texts.idxOf b := ⟨fun _ _ => Nat.lt_asymm⟩
  apply h.ascending.eq_of_mem_iff h'.ascending
  intro t
  rw [h.mem_iff, h'.mem_iff]

theorem leftover_unread (texts : List (List Char)) :
    Leftover (texts.map trim) (unread (cleaned texts)) where
  mem_iff t := by
    simp only [mem_unread, cleaned, List.mem_filter, Bool.not_eq_true', List.isEmpty_eq_false_iff,
      and_assoc]
  ascending := by
    rw [unread, cleaned, List.filter_filter]
    exact pairwise_idxOf_firstPerKey _ [] _

end Leftover

/-- An empty text writes no entry. -/
theorem readable_cleaned (texts : List (List Char)) :
    readable (cleaned texts) = readable (texts.map trim) := by
  rw [readable, cleaned, List.filterMap_filter]
  apply List.filterMap_congr
  intro t _
  cases t with
  | nil => rfl
  | cons c cs => rfl

/-- A merge by path is, for each path in the order of its bytes, the last of the entries with the
most lines, and then the texts that write no entry in the order in which they come first. -/
theorem mergeByPath_eq_iff {texts out : List (List Char)} :
    mergeByPath texts = out ↔
      ∃ kept rest, out = kept.map Read.text ++ rest ∧
        Selects (readable (texts.map trim)) kept ∧ Leftover (texts.map trim) rest := by
  have hkept : Selects (readable (texts.map trim)) (bests (readable (cleaned texts))) := by
    rw [readable_cleaned]
    exact selects_bests _
  constructor
  · rintro rfl
    exact ⟨_, _, mergeByPath_eq texts, hkept, leftover_unread texts⟩
  · rintro ⟨kept, rest, rfl, hselects, hleftover⟩
    rw [mergeByPath_eq, hkept.unique hselects, (leftover_unread texts).unique hleftover]

example : mergeByPath ["note".toList, "b:1,2".toList, "".toList, " b:4,3 ".toList, "b:5".toList,
    " note".toList] = ["b:4,3".toList, "note".toList] := by
  decide +kernel

/-- A text that writes an entry is kept in a merge by path exactly if its reading is the last of those
with the most lines for its path. -/
theorem text_mem_mergeByPath {texts : List (List Char)} {r : Read}
    (hparse : parse? r.text = some r.entry) :
    r.text ∈ mergeByPath texts ↔ LastMost (readable (cleaned texts)) r := by
  have hselects := selects_bests (readable (cleaned texts))
  rw [mergeByPath_eq, List.mem_append, ← hselects.mem_iff]
  constructor
  · rintro (hbest | hunread)
    · obtain ⟨b, hb, htext⟩ := List.mem_map.mp hbest
      have hentry := (mem_readable.mp (mem_of_mem_bests hb).1).2
      rw [htext, hparse, Option.some.injEq] at hentry
      have hsame : b = r := (Read.mk.injEq ..).mpr ⟨hentry.symm, htext⟩
      rwa [hsame] at hb
    · rw [(mem_unread.mp hunread).2] at hparse
      cases hparse
  · exact fun hbest => Or.inl (List.mem_map_of_mem hbest)

/-- The one new text for a path is kept in a merge by path exactly if no older text for the path has
more lines. -/
theorem text_mem_mergeByPath_iff {old new : List (List Char)} {r : Read}
    (h : (readable (cleaned new)).filter (·.entry.path == r.entry.path) = [r]) :
    r.text ∈ mergeByPath (old ++ new) ↔
      ∀ o ∈ readable (cleaned old), o.entry.path = r.entry.path →
        o.entry.lines.length ≤ r.entry.lines.length := by
  have hr : r ∈ readable (cleaned new) :=
    (List.mem_filter.mp (h ▸ List.mem_singleton_self r : r ∈ List.filter _ _)).1
  have hlast : LastMost (readable (cleaned new)) r := by
    rw [← lastMost_filter_iff, h]
    exact lastMost_singleton r
  rw [text_mem_mergeByPath (mem_readable.mp hr).2, cleaned_append, readable_append,
    lastMost_append_iff]
  constructor
  · rintro (⟨-, hnew⟩ | ⟨-, hold⟩)
    · exact absurd (hnew r hr rfl) (Nat.lt_irrefl _)
    · exact hold
  · exact fun hold => Or.inr ⟨hlast, hold⟩

section Merge

/-- Texts that were merged by path before others are merged with them as they first came. -/
theorem mergeByPath_mergeByPath_append (xs ys : List (List Char)) :
    mergeByPath (mergeByPath xs ++ ys) = mergeByPath (xs ++ ys) := by
  have hclean : cleaned (mergeByPath xs) = mergeByPath xs :=
    cleaned_of_clean fun t ht => clean_of_mem_cleaned (mem_cleaned_of_mem_mergeByPath ht)
  have hsound : ∀ b ∈ bests (readable (cleaned xs)), parse? b.text = some b.entry :=
    fun b hb => (mem_readable.mp (mem_of_mem_bests hb).1).2
  have hnone : ∀ t ∈ unread (cleaned xs), parse? t = none := fun t ht => (mem_unread.mp ht).2
  have hread : readable (mergeByPath xs) = bests (readable (cleaned xs)) := by
    rw [mergeByPath_eq, readable_append, readable_map_text hsound, readable_of_unread hnone,
      List.append_nil]
  have hunread : (mergeByPath xs).filter (fun t => (parse? t).isNone) = unread (cleaned xs) := by
    rw [mergeByPath_eq, List.filter_append, List.filter_eq_nil_iff.mpr, List.filter_eq_self.mpr,
      List.nil_append]
    · intro t ht
      simp [hnone t ht]
    · intro t ht
      obtain ⟨b, hb, rfl⟩ := List.mem_map.mp ht
      simp [hsound b hb]
  rw [mergeByPath_eq, mergeByPath_eq (xs ++ ys), cleaned_append, cleaned_append, hclean,
    readable_append, hread, readable_append, bests_bests_append]
  congr 1
  rw [unread, List.filter_append, hunread, unread, firstPerKey_firstPerKey_append, unread,
    List.filter_append]

/-- Texts that come again change nothing in a merge by path. -/
theorem mergeByPath_append_again (xs ys : List (List Char)) :
    mergeByPath (xs ++ ys ++ ys) = mergeByPath (xs ++ ys) := by
  rw [mergeByPath_eq, mergeByPath_eq]
  simp only [cleaned_append, readable_append, bests_append_again]
  congr 1
  rw [unread, List.filter_append, firstPerKey_append_of_covered]
  · rfl
  · intro t ht
    refine Or.inr ⟨t, ?_, rfl⟩
    rw [List.filter_append]
    exact List.mem_append_right _ ht

/-- The texts merged by path or by their text. -/
def merge (byPath : Bool) (texts : List (List Char)) : List (List Char) :=
  if byPath then mergeByPath texts else mergeExact texts

theorem mem_cleaned_of_mem_merge {byPath : Bool} {xs : List (List Char)} {t : List Char}
    (h : t ∈ merge byPath xs) : t ∈ cleaned xs := by
  cases byPath with
  | false => exact mem_mergeExact.mp h
  | true => exact mem_cleaned_of_mem_mergeByPath h

/-- Texts that were merged before others are merged with them as they first came. -/
theorem merge_merge_append (byPath : Bool) (xs ys : List (List Char)) :
    merge byPath (merge byPath xs ++ ys) = merge byPath (xs ++ ys) := by
  cases byPath with
  | false => exact mergeExact_mergeExact_append xs ys
  | true => exact mergeByPath_mergeByPath_append xs ys

/-- Texts that come again change nothing. -/
theorem merge_append_again (byPath : Bool) (xs ys : List (List Char)) :
    merge byPath (xs ++ ys ++ ys) = merge byPath (xs ++ ys) := by
  cases byPath with
  | false => exact mergeExact_append_again xs ys
  | true => exact mergeByPath_append_again xs ys

/-- Texts that were merged change nothing when they come again. -/
theorem merge_absorb (byPath : Bool) (xs ys : List (List Char)) :
    merge byPath (merge byPath (xs ++ ys) ++ ys) = merge byPath (xs ++ ys) := by
  rw [merge_merge_append, merge_append_again]

/-- Merging in two steps is merging at once, merging again changes nothing, and a merge by text is
determined by the set of the trimmed texts, each of which it holds once. -/
theorem merge_repeated_and_exact_set :
    (∀ (byPath : Bool) (xs ys : List (List Char)),
      merge byPath (merge byPath (xs ++ ys) ++ ys) = merge byPath (xs ++ ys) ∧
        merge byPath (merge byPath xs ++ ys) = merge byPath (xs ++ ys)) ∧
    (∀ xs ys : List (List Char),
      mergeExact xs = mergeExact ys ↔ ∀ t, t ∈ cleaned xs ↔ t ∈ cleaned ys) ∧
    ∀ (xs : List (List Char)) (t : List Char),
      (mergeExact xs).count t = if t ∈ cleaned xs then 1 else 0 := by
  refine ⟨fun byPath xs ys => ⟨merge_absorb byPath xs ys, merge_merge_append byPath xs ys⟩, ?_, ?_⟩
  · intro xs ys
    refine ⟨fun h t => ?_, mergeExact_congr⟩
    rw [← mem_mergeExact, h, mem_mergeExact]
  · intro xs t
    have hnodup : (mergeExact xs).Nodup := (pairwise_mergeExact xs).imp And.right
    simp only [hnodup.count, mem_mergeExact]

end Merge

end Concordance.Entry
