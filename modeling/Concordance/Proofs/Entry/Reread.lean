import Concordance.Proofs.Entry.Listed
import Concordance.Proofs.Entry.RoundTrip
import Concordance.Proofs.Text.Order

/-!
What is read back from the entries of a symbol.

The entries are the only trace that uses leave in a doc block. As long as the paths can be written, the
files and lines of the listed uses are read back from them, no more and no less, whether the entries are
grouped by file or not. With grouping they are in the order of the bytes of their paths, and each has
the kind of the use that comes first on the lowest line. Main statement: `Symbol.entries_reread`.
-/

namespace Concordance

open Text

section Order

theorem UsedLine.upTo_iff {a b : UsedLine} :
    a.upTo b = true ↔ a.path < b.path ∨ a.path = b.path ∧ a.line ≤ b.line := by
  simp [UsedLine.upTo]

theorem UsedLine.upTo_iff_lex (a b : UsedLine) :
    a.upTo b = true ↔ Prod.Lex (· < ·) (· ≤ ·) (a.path, a.line) (b.path, b.line) := by
  rw [UsedLine.upTo_iff, Prod.lex_iff]

theorem UsedLine.upTo_trans (a b c : UsedLine) :
    a.upTo b = true → b.upTo c = true → a.upTo c = true :=
  trans_of_lex UsedLine.upTo_iff_lex a b c

theorem UsedLine.upTo_total (a b : UsedLine) : (a.upTo b || b.upTo a) = true :=
  total_of_lex UsedLine.upTo_iff_lex a b

end Order

theorem UsageKind.name_letters (kind : UsageKind) :
    kind.name.toList ≠ [] ∧ ∀ c ∈ kind.name.toList, c.isAlpha = true ∨ c = '_' := by
  cases kind <;> decide

namespace Symbol

variable {s : Symbol} {options : EntryOptions} {first : UsedLine} {a : List Char}

theorem pairwise_usedLines (s : Symbol) (options : EntryOptions) :
    (s.usedLines options).Pairwise fun a b => a.upTo b = true := by
  rw [usedLines_eq]
  exact List.pairwise_mergeSort UsedLine.upTo_trans UsedLine.upTo_total _

/-- Of the uses on one line of a file the first in order is the first that was listed. -/
theorem find?_usedLines (s : Symbol) (options : EntryOptions) (path : String) (line : Nat) :
    (s.usedLines options).find? (fun v => v.path == path && v.line == line) =
      ((s.usages.filter (s.Lists options ·)).map (Usage.usedLine options)).find?
        fun v => v.path == path && v.line == line := by
  rw [← List.head?_filter, ← List.head?_filter, usedLines_eq,
    filter_mergeSort UsedLine.upTo_trans UsedLine.upTo_total, List.mergeSort_of_pairwise]
  -- they are all at the same place of the order
  apply List.pairwise_of_forall_mem_list
  intro a ha b hb
  obtain ⟨-, ha⟩ := List.mem_filter.mp ha
  obtain ⟨-, hb⟩ := List.mem_filter.mp hb
  simp only [Bool.and_eq_true, beq_iff_eq] at ha hb
  exact UsedLine.upTo_iff.mpr (Or.inr ⟨ha.1.trans hb.1.symm, (ha.2.trans hb.2.symm).le⟩)

section Groups

/-- The entry for the file of a use, with all lines in the file. -/
def fileEntry (s : Symbol) (options : EntryOptions) (first : UsedLine) : Entry :=
  first.entry (dropRepeats
    (((s.usedLines options).filter (·.path == first.path)).map UsedLine.line))

/-- The first uses in the files, in the order of the files. -/
def fileFirsts (s : Symbol) (options : EntryOptions) : List UsedLine :=
  firstPerKey UsedLine.path [] (s.usedLines options)

theorem entries_of_grouping (h : options.groupByFile = true) :
    s.entries options = (s.fileFirsts options).map fun first =>
      (s.fileEntry options first).render := by
  rw [entries, if_pos h]
  rfl

theorem mem_lines_fileEntry {n : Nat} :
    n ∈ (s.fileEntry options first).lines ↔
      ∃ v ∈ s.usedLines options, v.path = first.path ∧ v.line = n := by
  rw [fileEntry, UsedLine.entry, mem_dropRepeats, List.mem_map]
  simp only [List.mem_filter, beq_iff_eq, and_assoc]

/-- The lines of an entry are strictly ascending. -/
theorem pairwise_lines_fileEntry (first : UsedLine) :
    (s.fileEntry options first).lines.Pairwise (· < ·) := by
  have hlines : (((s.usedLines options).filter (·.path == first.path)).map UsedLine.line).Pairwise
      fun m n => decide (m ≤ n) = true := by
    rw [List.pairwise_map]
    have hsorted := (s.pairwise_usedLines options).filter (·.path == first.path)
    apply hsorted.imp_of_mem
    intro a b ha hb hab
    have ha := beq_iff_eq.mp (List.mem_filter.mp ha).2
    have hb := beq_iff_eq.mp (List.mem_filter.mp hb).2
    rcases UsedLine.upTo_iff.mp hab with hlt | ⟨-, hle⟩
    · rw [ha, hb] at hlt
      exact absurd hlt (String.lt_irrefl _)
    · exact decide_eq_true hle
  have hstrict := pairwise_dropRepeats (fun m n hmn hnm =>
    Nat.le_antisymm (of_decide_eq_true hmn) (of_decide_eq_true hnm)) hlines
  exact hstrict.imp fun h => Nat.lt_of_le_of_ne (of_decide_eq_true h.1) h.2

/-- The files are in the order of the bytes of their paths, each once. -/
theorem pairwise_fileFirsts (s : Symbol) (options : EntryOptions) :
    (s.fileFirsts options).Pairwise
      fun a b => Digest.utf8 a.path.toList < Digest.utf8 b.path.toList := by
  have hsorted := (s.pairwise_usedLines options).sublist
    (firstPerKey_sublist UsedLine.path [] (s.usedLines options))
  have hdistinct := List.pairwise_map.mp
    (nodup_map_firstPerKey UsedLine.path [] (s.usedLines options))
  refine (hsorted.and hdistinct).imp fun {a b} h => ?_
  rw [utf8_lt_iff_lt]
  exact (UsedLine.upTo_iff.mp h.1).resolve_right fun heq => h.2 heq.1

/-- The use is listed, for the file. -/
def ListsIn (s : Symbol) (options : EntryOptions) (path : List Char) (u : Usage) : Prop :=
  s.Lists options u ∧ (displayPath u.filePath options.root).toList = path

instance (s : Symbol) (options : EntryOptions) (path : List Char) :
    DecidablePred (s.ListsIn options path) :=
  fun _ => inferInstanceAs (Decidable (_ ∧ _))

/-- The use is the first of those on the lowest line that are listed for the file: none stands above it,
and none on its line comes before it. -/
def LowestFirst (s : Symbol) (options : EntryOptions) (path : List Char) (u : Usage) : Prop :=
  ∃ before after, s.usages = before ++ u :: after ∧ s.ListsIn options path u ∧
    (∀ v ∈ before, s.ListsIn options path v → u.position.line < v.position.line) ∧
    ∀ v ∈ after, s.ListsIn options path v → u.position.line ≤ v.position.line

theorem line_le_of_mem_fileFirsts (h : first ∈ s.fileFirsts options) {v : UsedLine}
    (hv : v ∈ s.usedLines options) (hpath : v.path = first.path) : first.line ≤ v.line := by
  obtain ⟨-, before, after, hsplit, hbefore⟩ :=
    List.find?_eq_some_iff_append.mp (find?_of_mem_firstPerKey UsedLine.path h)
  have hsorted := s.pairwise_usedLines options
  rw [hsplit] at hv hsorted
  rcases List.mem_append.mp hv with hv | hv
  · exact absurd hpath (by simpa using hbefore v hv)
  · rcases List.mem_cons.mp hv with rfl | hv
    · exact Nat.le_refl _
    · have hle := (List.pairwise_cons.mp (List.pairwise_append.mp hsorted).2.1).1 v hv
      rcases UsedLine.upTo_iff.mp hle with hlt | ⟨-, hle⟩
      · exact absurd (hpath ▸ hlt) (String.lt_irrefl _)
      · exact hle

/-- The first use in a file is the one that comes first on the lowest line. -/
theorem lowestFirst_of_mem_fileFirsts (h : first ∈ s.fileFirsts options) :
    ∃ u, u.usedLine options = first ∧ s.LowestFirst options first.path.toList u := by
  have hfind : (s.usedLines options).find?
      (fun v => v.path == first.path && v.line == first.line) = some first := by
    obtain ⟨-, before, after, hsplit, hbefore⟩ :=
      List.find?_eq_some_iff_append.mp (find?_of_mem_firstPerKey UsedLine.path h)
    refine List.find?_eq_some_iff_append.mpr ⟨by simp, before, after, hsplit, fun v hv => ?_⟩
    rw [Bool.not_and, hbefore v hv, Bool.true_or]
  rw [find?_usedLines, List.find?_map, List.find?_filter, Option.map_eq_some_iff] at hfind
  obtain ⟨u, hu, rfl⟩ := hfind
  obtain ⟨hlists, before, after, hsplit, hbefore⟩ := List.find?_eq_some_iff_append.mp hu
  have hlow : ∀ v ∈ s.usages, s.ListsIn options (u.usedLine options).path.toList v →
      (v.usedLine options).path = (u.usedLine options).path ∧ u.position.line ≤ v.position.line := by
    intro v hv ⟨hlists, hpath⟩
    have hpath : (v.usedLine options).path = (u.usedLine options).path := String.toList_injective hpath
    exact ⟨hpath, Nat.succ_le_succ_iff.mp
      (line_le_of_mem_fileFirsts h (mem_usedLines.mpr ⟨v, hv, hlists, rfl⟩) hpath)⟩
  refine ⟨u, rfl, before, after, hsplit, ⟨?_, rfl⟩, ?_, ?_⟩
  · simpa using hlists
  · intro v hv hin
    obtain ⟨hpath, hle⟩ := hlow v (by rw [hsplit]; exact List.mem_append_left _ hv) hin
    have hline : v.position.line ≠ u.position.line := by
      intro heq
      have hother := hbefore v hv
      have hsame : (v.usedLine options).line = (u.usedLine options).line := congrArg (· + 1) heq
      simp [hin.1, hpath, hsame] at hother
    omega
  · intro v hv hin
    exact (hlow v (by rw [hsplit]; exact List.mem_append_right _ (List.mem_cons_of_mem _ hv)) hin).2

end Groups

section Reread

/-- Every use that is listed has a path that can be written in an entry, and a line whose number, counted
from one, is a 64-bit number. -/
structure Writable (s : Symbol) (options : EntryOptions) : Prop where
  path : ∀ u ∈ s.usages, s.Lists options u →
    Entry.PlainPath (displayPath u.filePath options.root).toList
  line : ∀ u ∈ s.usages, s.Lists options u → u.position.line < maxNumber

variable {used : UsedLine} {lines : List Nat}

theorem Writable.path_of_mem (h : s.Writable options) (hused : used ∈ s.usedLines options) :
    Entry.PlainPath used.path.toList := by
  obtain ⟨u, hu, hlists, rfl⟩ := mem_usedLines.mp hused
  exact h.path u hu hlists

theorem Writable.line_of_mem (h : s.Writable options) (hused : used ∈ s.usedLines options) :
    used.line ≤ maxNumber := by
  obtain ⟨u, hu, hlists, rfl⟩ := mem_usedLines.mp hused
  exact h.line u hu hlists

theorem Writable.entry (h : s.Writable options) (hused : used ∈ s.usedLines options)
    (hne : lines ≠ []) (hlines : ∀ n ∈ lines, ∃ v ∈ s.usedLines options, v.line = n) :
    (used.entry lines).Writable where
  path := h.path_of_mem hused
  lines_ne_nil := hne
  lines_le n hn := by
    obtain ⟨v, hv, rfl⟩ := hlines n hn
    exact h.line_of_mem hv
  kind name hname := by
    obtain rfl := Option.some.inj hname
    exact used.kind.name_letters

theorem Writable.fileEntry (h : s.Writable options) (hfirst : first ∈ s.fileFirsts options) :
    (s.fileEntry options first).Writable := by
  have hused : first ∈ s.usedLines options := mem_of_mem_firstPerKey UsedLine.path hfirst
  have hline : first.line ∈ (s.fileEntry options first).lines :=
    mem_lines_fileEntry.mpr ⟨first, hused, rfl, rfl⟩
  refine h.entry hused (List.ne_nil_of_mem hline) fun n hn => ?_
  obtain ⟨v, hv, -, hline⟩ := mem_lines_fileEntry.mp hn
  exact ⟨v, hv, hline⟩

theorem mem_entries_of_not_grouping (h : options.groupByFile = false) :
    a ∈ s.entries options ↔ ∃ u ∈ s.usedLines options, (u.entry [u.line]).render = a := by
  rw [entries, if_neg (by simp [h]), mem_dropRepeats, List.mem_map]

/-- Each entry is written for a use with the lines of other uses of that file, and every line is
written. -/
theorem entries_written (h : s.Writable options) :
    (∀ a ∈ s.entries options, ∃ e : Entry, e.Writable ∧ e.render = a ∧
      ∀ n ∈ e.lines, ∃ v ∈ s.usedLines options, v.path.toList = e.path ∧ v.line = n) ∧
    ∀ v ∈ s.usedLines options, ∃ e : Entry, e.Writable ∧ e.render ∈ s.entries options ∧
      e.path = v.path.toList ∧ v.line ∈ e.lines := by
  by_cases hgroup : options.groupByFile = true
  · rw [entries_of_grouping hgroup]
    constructor
    · intro a ha
      obtain ⟨first, hfirst, rfl⟩ := List.mem_map.mp ha
      refine ⟨_, h.fileEntry hfirst, rfl, fun n hn => ?_⟩
      obtain ⟨v, hv, hpath, hline⟩ := mem_lines_fileEntry.mp hn
      exact ⟨v, hv, congrArg String.toList hpath, hline⟩
    · intro v hv
      obtain hseen | hkept := key_mem_firstPerKey UsedLine.path [] hv
      · exact absurd hseen List.not_mem_nil
      · obtain ⟨first, hfirst, hpath⟩ := List.mem_map.mp hkept
        exact ⟨_, h.fileEntry hfirst, List.mem_map_of_mem hfirst, congrArg String.toList hpath,
          mem_lines_fileEntry.mpr ⟨v, hv, hpath.symm, rfl⟩⟩
  · rw [Bool.not_eq_true] at hgroup
    have hwritable : ∀ v ∈ s.usedLines options, (v.entry [v.line]).Writable := fun v hv =>
      h.entry hv (List.cons_ne_nil _ _) fun n hn => ⟨v, hv, (List.mem_singleton.mp hn).symm⟩
    constructor
    · intro a ha
      obtain ⟨u, hu, rfl⟩ := (mem_entries_of_not_grouping hgroup).mp ha
      exact ⟨_, hwritable u hu, rfl, fun n hn => ⟨u, hu, rfl, (List.mem_singleton.mp hn).symm⟩⟩
    · intro v hv
      exact ⟨_, hwritable v hv, (mem_entries_of_not_grouping hgroup).mpr ⟨v, hv, rfl⟩, rfl,
        List.mem_singleton.mpr rfl⟩

/-- The entries of a symbol, read back. -/
def reread (s : Symbol) (options : EntryOptions) : List Entry :=
  (s.entries options).filterMap Entry.parse?

/-- Every entry is read back, and with it a file and lines of uses in it. -/
theorem exists_parse?_of_mem_entries (h : s.Writable options) (ha : a ∈ s.entries options) :
    ∃ e, Entry.parse? a = some e ∧
      ∀ n ∈ e.lines, ∃ v ∈ s.usedLines options, v.path.toList = e.path ∧ v.line = n := by
  obtain ⟨e, he, rfl, hlines⟩ := (entries_written h).1 a ha
  exact ⟨e, Entry.parse?_render he, hlines⟩

/-- What is read back are the files and lines of the uses. -/
theorem exists_mem_reread_iff (h : s.Writable options) {path : List Char} {line : Nat} :
    (∃ e ∈ s.reread options, e.path = path ∧ line ∈ e.lines) ↔
      ∃ u ∈ s.usages, s.ListsIn options path u ∧ u.position.line + 1 = line := by
  have hused : (∃ u ∈ s.usages, s.ListsIn options path u ∧ u.position.line + 1 = line) ↔
      ∃ v ∈ s.usedLines options, v.path.toList = path ∧ v.line = line := by
    simp only [mem_usedLines, ListsIn]
    constructor
    · rintro ⟨u, hu, ⟨hlists, hpath⟩, hline⟩
      exact ⟨_, ⟨u, hu, hlists, rfl⟩, hpath, hline⟩
    · rintro ⟨_, ⟨u, hu, hlists, rfl⟩, hpath, hline⟩
      exact ⟨u, hu, ⟨hlists, hpath⟩, hline⟩
  rw [hused]
  constructor
  · rintro ⟨e, he, rfl, hline⟩
    obtain ⟨a, ha, hread⟩ := List.mem_filterMap.mp he
    obtain ⟨e', hread', hlines⟩ := exists_parse?_of_mem_entries h ha
    obtain rfl := Option.some.inj (hread.symm.trans hread')
    exact hlines line hline
  · rintro ⟨v, hv, rfl, rfl⟩
    obtain ⟨e, he, hmem, hpath, hline⟩ := (entries_written h).2 v hv
    exact ⟨e, List.mem_filterMap.mpr ⟨_, hmem, Entry.parse?_render he⟩, hpath, hline⟩

/-- With grouping the entries of the files are read back. -/
theorem reread_of_grouping (h : s.Writable options) (hgroup : options.groupByFile = true) :
    s.reread options = (s.fileFirsts options).map (s.fileEntry options) := by
  rw [reread, entries_of_grouping hgroup, List.filterMap_map, ← List.filterMap_eq_map]
  apply List.filterMap_congr
  intro first hfirst
  rw [Function.comp_apply, Function.comp_apply, Entry.parse?_render (h.fileEntry hfirst)]

/-- The entries of a symbol lose nothing. Each of them is read back, and they name the files and lines of
the listed uses. With grouping the paths ascend and so do the lines of each entry; its kind is the kind
of the use that comes first on the lowest line. -/
theorem entries_reread (s : Symbol) (options : EntryOptions) (h : s.Writable options) :
    (∀ a ∈ s.entries options, (Entry.parse? a).isSome = true) ∧
    (∀ path line, (∃ e ∈ s.reread options, e.path = path ∧ line ∈ e.lines) ↔
      ∃ u ∈ s.usages, s.ListsIn options path u ∧ u.position.line + 1 = line) ∧
    (options.groupByFile = true →
      (s.reread options).Pairwise (fun e e' => Digest.utf8 e.path < Digest.utf8 e'.path) ∧
      ∀ e ∈ s.reread options, e.lines.Pairwise (· < ·) ∧
        ∃ u, s.LowestFirst options e.path u ∧ e.kind = some u.kind.name.toList) := by
  refine ⟨?_, fun path line => exists_mem_reread_iff h, fun hgroup => ?_⟩
  · intro a ha
    obtain ⟨e, he, -⟩ := exists_parse?_of_mem_entries h ha
    exact Option.isSome_iff_exists.mpr ⟨e, he⟩
  · rw [reread_of_grouping h hgroup, List.pairwise_map]
    refine ⟨s.pairwise_fileFirsts options, fun e he => ?_⟩
    obtain ⟨first, hfirst, rfl⟩ := List.mem_map.mp he
    obtain ⟨u, rfl, hu⟩ := lowestFirst_of_mem_fileFirsts hfirst
    exact ⟨pairwise_lines_fileEntry _, u, hu, rfl⟩

/-- A definition on the third line of a file, used there, on later lines, and in a file whose path looks
like an entry. One of the uses gives that path as it is seen from the root. -/
def usedAround : Symbol :=
  let use (file : String) (line : Nat) (kind : UsageKind) : Usage :=
    ⟨file, ⟨line, 0⟩, ⟨⟨line, 0⟩, ⟨line, 4⟩⟩, "f();", kind⟩
  { id := "0", name := "f", kind := .function, filePath := "/r/src/a.js", position := ⟨2, 9⟩,
    range := ⟨⟨2, 0⟩, ⟨2, 20⟩⟩,
    usages := [use "/r/src/a.js" 2 .reference, use "/r/src/b:3 (call)" 7 .call,
      use "/r/lib/lib.js" 1 .imported, use "src/b:3 (call)" 4 .extend, use "/r/src/b:3 (call)" 4 .call,
      use "/r/src/a.js" 9 .call, use "/r/src/a.js" 9 .reference] }

theorem entries_reread_usedAround :
    usedAround.Writable ⟨true, true, some "/r"⟩ ∧
      (∃ e ∈ usedAround.reread ⟨true, true, some "/r"⟩,
        e.path = "src/b:3 (call)".toList ∧ 5 ∈ e.lines) ∧
      (¬ ∃ e ∈ usedAround.reread ⟨true, true, some "/r"⟩,
        e.path = "src/a.js".toList ∧ 3 ∈ e.lines) ∧
      (usedAround.reread ⟨true, true, some "/r"⟩).Pairwise
        fun e e' => Digest.utf8 e.path < Digest.utf8 e'.path := by
  have hwritable : usedAround.Writable ⟨true, true, some "/r"⟩ := ⟨by decide, by decide⟩
  obtain ⟨-, hread, hgrouped⟩ := entries_reread usedAround ⟨true, true, some "/r"⟩ hwritable
  refine ⟨hwritable, (hread _ _).mpr ?_, fun h => ?_, (hgrouped rfl).1⟩
  · decide
  · have hnone := (hread _ _).mp h
    revert hnone
    decide

end Reread

end Symbol

end Concordance
