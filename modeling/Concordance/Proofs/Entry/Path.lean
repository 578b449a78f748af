import Mathlib.Data.List.Nodup
import Concordance.Entry.OfUsages
import Concordance.Proofs.Entry.Form
import Concordance.Proofs.Entry.Merge

/-!
The path that is read from an entry.

An entry has no colon behind the one after its path, in what it reads and in what it writes. So the
path of an entry made from uses is read back, unless white space before it is trimmed away, and the
entries of one list, one for each file, are read as entries for distinct files. Main statements:
`exists_of_parse?`, `path_of_parse?_entry` and `Symbol.filter_path_entries`.
-/

namespace Concordance

open Text

namespace Entry

/-- The path of an entry that is read stands before the last colon of its text. -/
theorem exists_of_parse? {text : List Char} {e : Entry} (h : parse? text = some e) :
    ∃ behind, trim text = e.path ++ ':' :: behind ∧ ':' ∉ behind := by
  have hspells := parse?_eq_some_iff.mp h
  generalize trim text = trimmed at hspells
  cases hspells with
  | intro _ _ hnumerals hkind => exact ⟨_, rfl, colon_notMem_behind hnumerals hkind⟩

section Written

theorem colon_notMem_decimal (n : Nat) : ':' ∉ decimal n := by
  intro h
  have hdigit := Nat.isDigit_of_mem_toDigits (by decide) (by decide) h
  exact absurd hdigit (by decide)

/-- An entry made from uses is its path, a colon, and a text without colons that ends in a
parenthesis. -/
theorem exists_render_entry (u : UsedLine) (lines : List Nat) :
    ∃ behind, (u.entry lines).render = u.path.toList ++ ':' :: (behind ++ [')']) ∧
      ':' ∉ behind ++ [')'] := by
  have hlines : ':' ∉ [','].intercalate (lines.map decimal) := by
    intro h
    rcases mem_intercalate h with h | ⟨piece, hpiece, h⟩
    · exact absurd h (by decide)
    · obtain ⟨n, -, rfl⟩ := List.mem_map.mp hpiece
      exact colon_notMem_decimal n h
  have hkind : ':' ∉ u.kind.name.toList := by cases u.kind <;> decide
  refine ⟨[','].intercalate (lines.map decimal) ++ (" (".toList ++ u.kind.name.toList), ?_, ?_⟩
  · simp [render, UsedLine.entry]
  · simp [hlines, hkind]

variable {u : UsedLine} {lines : List Nat} {e : Entry}

/-- Trimming takes nothing from an entry whose path starts with no white space. -/
theorem trim_render_entry (hpath : trimStart u.path.toList = u.path.toList) :
    trim (u.entry lines).render = (u.entry lines).render := by
  obtain ⟨behind, htext, -⟩ := exists_render_entry u lines
  have hend : trimEnd (u.entry lines).render = (u.entry lines).render := by
    rw [htext, ← List.cons_append, ← List.append_assoc]
    exact trimEnd_concat _ (by decide)
  refine trim_eq_self_iff.mpr ⟨?_, hend⟩
  rw [htext, trimStart_eq_self_iff]
  cases h : u.path.toList with
  | nil =>
    intro c hc
    obtain rfl : ':' = c := by simpa using hc
    decide
  | cons c cs =>
    rw [h] at hpath
    exact fun d hd => trimStart_eq_self_iff.mp hpath d (by simpa using hd)

/-- The path of an entry made from uses is read back. -/
theorem path_of_parse?_entry (hpath : trimStart u.path.toList = u.path.toList)
    (h : parse? (u.entry lines).render = some e) : e.path = u.path.toList := by
  obtain ⟨behind, htext, hcolon⟩ := exists_of_parse? h
  obtain ⟨behind', htext', hcolon'⟩ := exists_render_entry u lines
  rw [trim_render_entry hpath, htext'] at htext
  exact (eq_of_cut_at_last htext hcolon' hcolon).symm

/-- Texts with distinct paths are read as entries with distinct paths. -/
theorem nodup_paths_readable {α : Type} {text : α → List Char} {path : α → List Char} {xs : List α}
    (hread : ∀ x ∈ xs, ∀ e, parse? (text x) = some e → e.path = path x)
    (hnodup : (xs.map path).Nodup) : ((readable (xs.map text)).map (·.entry.path)).Nodup := by
  induction xs with
  | nil => exact List.nodup_nil
  | cons x xs ih =>
    obtain ⟨hfresh, hnodup⟩ := List.nodup_cons.mp hnodup
    have hlater := ih (fun y hy => hread y (List.mem_cons_of_mem x hy)) hnodup
    rw [List.map_cons, readable, List.filterMap_cons]
    cases he : parse? (text x) with
    | none => exact hlater
    | some e =>
      refine List.nodup_cons.mpr ⟨fun hmem => hfresh ?_, hlater⟩
      obtain ⟨r, hr, hpath⟩ := List.mem_map.mp hmem
      change r.entry.path = e.path at hpath
      obtain ⟨htext, hentry⟩ := mem_readable.mp hr
      obtain ⟨y, hy, hy'⟩ := List.mem_map.mp htext
      rw [← hy'] at hentry
      rw [← hread x List.mem_cons_self e he, ← hpath,
        hread y (List.mem_cons_of_mem x hy) _ hentry]
      exact List.mem_map_of_mem hy

end Written

end Entry

section Symbol

variable {s : Symbol} {options : EntryOptions} {a : List Char}

/-- No path that the entries of the symbol name starts with white space. -/
def Symbol.FlushPaths (s : Symbol) (options : EntryOptions) : Prop :=
  ∀ u ∈ s.usedLines options, trimStart u.path.toList = u.path.toList

instance (s : Symbol) (options : EntryOptions) : Decidable (s.FlushPaths options) :=
  inferInstanceAs (Decidable (∀ u ∈ s.usedLines options, trimStart u.path.toList = u.path.toList))

/-- With grouping the entries are written for files that are distinct. -/
theorem Symbol.exists_entries_eq (s : Symbol) (hgroup : options.groupByFile = true) :
    ∃ (firsts : List UsedLine) (lines : UsedLine → List Nat),
      s.entries options = firsts.map (fun u => (u.entry (lines u)).render) ∧
      (∀ u ∈ firsts, u ∈ s.usedLines options) ∧ (firsts.map (·.path.toList)).Nodup := by
  refine ⟨firstPerKey UsedLine.path [] (s.usedLines options), fun first => dropRepeats
    (((s.usedLines options).filter (·.path == first.path)).map UsedLine.line), ?_,
    fun u hu => mem_of_mem_firstPerKey _ hu, ?_⟩
  · rw [Symbol.entries, if_pos hgroup]
  · have hnodup := nodup_map_firstPerKey UsedLine.path [] (s.usedLines options)
    have hchars := List.Nodup.map (fun _ _ => String.toList_inj.mp) hnodup
    rwa [List.map_map] at hchars

theorem Symbol.clean_of_mem_entries (hgroup : options.groupByFile = true)
    (hpaths : s.FlushPaths options) (h : a ∈ s.entries options) : Entry.Clean a := by
  obtain ⟨firsts, lines, hentries, hused, -⟩ := s.exists_entries_eq hgroup
  rw [hentries] at h
  obtain ⟨u, hu, rfl⟩ := List.mem_map.mp h
  refine ⟨Entry.trim_render_entry (hpaths u (hused u hu)), ?_⟩
  obtain ⟨behind, htext, -⟩ := Entry.exists_render_entry u (lines u)
  simp [htext]

/-- Of the entries of a symbol one is read as an entry for a path. -/
theorem Symbol.filter_path_entries (hgroup : options.groupByFile = true)
    (hpaths : s.FlushPaths options) (h : a ∈ s.entries options) {e : Entry}
    (he : Entry.parse? a = some e) :
    (Entry.readable (Entry.cleaned (s.entries options))).filter (·.entry.path == e.path) =
      [⟨e, a⟩] := by
  have hclean : Entry.cleaned (s.entries options) = s.entries options :=
    Entry.cleaned_of_clean fun t ht => clean_of_mem_entries hgroup hpaths ht
  obtain ⟨firsts, lines, hentries, hused, hnodup⟩ := s.exists_entries_eq hgroup
  have hread : ∀ u ∈ firsts, ∀ e, Entry.parse? (u.entry (lines u)).render = some e →
      e.path = u.path.toList :=
    fun u hu _ he => Entry.path_of_parse?_entry (hpaths u (hused u hu)) he
  have hdistinct := Entry.nodup_paths_readable hread hnodup
  rw [hclean]
  rw [← hentries] at hdistinct
  exact Entry.filter_path_of_nodup (b := ⟨e, a⟩) hdistinct (Entry.mem_readable.mpr ⟨h, he⟩)

end Symbol

end Concordance
