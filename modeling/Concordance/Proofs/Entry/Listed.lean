import Concordance.Entry.OfUsages
import Concordance.Proofs.Keyed

/-!
The uses that the entries of a symbol list.

A use is left out for where it stands and not for what it is: on the line of the definition, or in the
main file of a module. So symbols defined on one line leave out the same uses. Main statements:
`Symbol.usedLines_eq`, `Symbol.lists_congr` and `Symbol.entries_eq_nil_iff`.
-/

namespace Concordance

/-- The line of a use, as the entries name it. -/
def Usage.usedLine (options : EntryOptions) (u : Usage) : UsedLine :=
  ⟨displayPath u.filePath options.root, u.position.line + 1, u.kind⟩

namespace Symbol

variable {s t : Symbol} {options : EntryOptions} {u : Usage}

/-- The entries list the use: it does not stand on the line of the definition nor, where those are left
out, in the main file of a module. -/
def Lists (s : Symbol) (options : EntryOptions) (u : Usage) : Prop :=
  ¬ (u.filePath = s.filePath ∧ u.position.line = s.position.line) ∧
    ¬ (options.skipEntryPoints = true ∧ isEntryPoint (displayPath u.filePath options.root) = true)

instance (s : Symbol) (options : EntryOptions) : DecidablePred (s.Lists options) :=
  fun _ => inferInstanceAs (Decidable (_ ∧ _))

theorem lists_iff : s.Lists options u ↔
    (!s.isDefinitionSite u.filePath u.position.line) = true ∧
      (!(options.skipEntryPoints && isEntryPoint (u.usedLine options).path)) = true := by
  simp only [Lists, isDefinitionSite, Usage.usedLine, Bool.not_eq_true', Bool.and_eq_false_iff,
    beq_eq_false_iff_ne, not_and, Bool.not_eq_true, ne_eq, eq_comm (a := u.filePath),
    eq_comm (a := u.position.line)]
  grind

/-- The lines are those of the listed uses, in order. -/
theorem usedLines_eq (s : Symbol) (options : EntryOptions) :
    s.usedLines options =
      ((s.usages.filter (s.Lists options ·)).map (Usage.usedLine options)).mergeSort
        UsedLine.upTo := by
  have hlisted : s.usages.filter (s.Lists options ·) =
      (s.usages.filter fun u => !s.isDefinitionSite u.filePath u.position.line).filter
        fun u => !(options.skipEntryPoints && isEntryPoint (u.usedLine options).path) := by
    rw [List.filter_filter]
    apply List.filter_congr
    intro u _
    rw [decide_eq_decide.mpr lists_iff, Bool.decide_and, Bool.decide_eq_true, Bool.decide_eq_true,
      Bool.and_comm]
  rw [hlisted, usedLines, List.filter_map]
  rfl

theorem mem_usedLines {used : UsedLine} :
    used ∈ s.usedLines options ↔ ∃ u ∈ s.usages, s.Lists options u ∧ u.usedLine options = used := by
  rw [usedLines_eq, List.mem_mergeSort, List.mem_map]
  simp only [List.mem_filter, decide_eq_true_eq, and_assoc]

/-- Whether a use is listed depends on the line of the definition only. -/
theorem lists_congr (hfile : s.filePath = t.filePath) (hline : s.position.line = t.position.line) :
    s.Lists options u ↔ t.Lists options u := by
  rw [Lists, Lists, hfile, hline]

/-- There are no entries exactly if no use is listed, with grouping and without. -/
theorem entries_eq_nil_iff :
    s.entries options = [] ↔ ∀ u ∈ s.usages, ¬ s.Lists options u := by
  have hused : s.usedLines options = [] ↔ ∀ u ∈ s.usages, ¬ s.Lists options u := by
    rw [List.eq_nil_iff_forall_not_mem]
    simp only [mem_usedLines]
    exact ⟨fun h u hu hlists => h _ ⟨u, hu, hlists, rfl⟩,
      fun h _ ⟨u, hu, hlists, _⟩ => h u hu hlists⟩
  rw [← hused, entries]
  dsimp only
  cases hlines : s.usedLines options with
  | nil => simp [firstPerKey, dropRepeats]
  | cons used rest =>
    split
    · simp [firstPerKey]
    · have hfirst := mem_dropRepeats.mpr
        (List.mem_map_of_mem (f := fun u : UsedLine => (u.entry [u.line]).render)
          (List.mem_cons_self (a := used) (l := rest)))
      exact iff_of_false (List.ne_nil_of_mem hfirst) (List.cons_ne_nil _ _)

end Symbol

end Concordance
