import Concordance.Proofs.Annotate.Run
import Concordance.Proofs.Entry.Listed

/-!
When a file gets entries.

Whether a file is worth reading is asked of its symbols one by one; the entries are then written for
the owners of its lines, which have the uses of all symbols on the line. The two agree because a use is
listed for the line where the symbol is defined, and that is the same for all of them. Main statement:
`hasEntries_iff_owner`.
-/

namespace Concordance

section Owner

variable {symbols : List Symbol} {owner : Symbol}

theorem lineOwner?_eq_none_iff : lineOwner? symbols = none ↔ symbols = [] := by
  have hlength : (symbols.mergeSort fun a b =>
      decide (a.position.character ≤ b.position.character)).length = symbols.length :=
    List.length_mergeSort symbols
  unfold lineOwner?
  split
  · next hsorted =>
    rw [hsorted] at hlength
    simpa using (List.length_eq_zero_iff.mp hlength.symm)
  · next first rest hsorted =>
    rw [hsorted] at hlength
    refine iff_of_false (Option.some_ne_none _) (List.ne_nil_of_length_pos ?_)
    rw [← hlength]
    exact Nat.succ_pos _

/-- The owner of a line is one of the definitions there, with the uses of them all. -/
theorem lineOwner?_spec (h : lineOwner? symbols = some owner) :
    (∃ first ∈ symbols, owner = { first with usages := owner.usages }) ∧
      ∀ u, u ∈ owner.usages ↔ ∃ s ∈ symbols, u ∈ s.usages := by
  unfold lineOwner? at h
  split at h
  · cases h
  · next first rest hsorted =>
    obtain rfl := Option.some.inj h
    have hmem : ∀ s, s ∈ symbols ↔ s = first ∨ s ∈ rest := by
      intro s
      rw [← List.mem_cons, ← hsorted, List.mem_mergeSort]
    refine ⟨⟨first, (hmem first).mpr (Or.inl rfl), rfl⟩, fun u => ?_⟩
    rw [List.mem_mergeSort, List.mem_append, List.mem_flatMap]
    simp only [hmem, or_and_right, exists_or, exists_eq_left]

end Owner

section Group

variable {file : String} {symbols : List Symbol} {options : EntryOptions} {line : Nat}
  {owner s : Symbol}

/-- The definitions of a file on a line. -/
def definedOn (file : String) (symbols : List Symbol) (line : Nat) : List Symbol :=
  (symbols.filter (·.filePath == file)).filter (·.position.line == line)

theorem mem_definedOn :
    s ∈ definedOn file symbols line ↔
      s ∈ symbols ∧ s.filePath = file ∧ s.position.line = line := by
  rw [definedOn, List.mem_filter, List.mem_filter, beq_iff_eq, beq_iff_eq, and_assoc]

theorem mem_definitionLines :
    line ∈ definitionLines symbols ↔ ∃ s ∈ symbols, s.position.line = line := by
  have hline : line ∈ symbols.map (·.position.line) ↔ ∃ s ∈ symbols, s.position.line = line :=
    List.mem_map
  rw [definitionLines, List.mem_mergeSort, ← hline]
  constructor
  · exact mem_of_mem_firstPerKey id
  · intro h
    simpa using (key_mem_firstPerKey id [] h).resolve_left (List.not_mem_nil)

/-- The owner of a line has entries exactly if one of the definitions there has some. -/
theorem entries_lineOwner?_ne_nil_iff
    (h : lineOwner? (definedOn file symbols line) = some owner) :
    owner.entries options ≠ [] ↔ ∃ s ∈ definedOn file symbols line, s.entries options ≠ [] := by
  obtain ⟨⟨first, hfirst, howner⟩, husages⟩ := lineOwner?_spec h
  have hlists : ∀ s ∈ definedOn file symbols line, ∀ u,
      owner.Lists options u ↔ s.Lists options u := by
    intro s hs u
    obtain ⟨-, hfile, hline⟩ := mem_definedOn.mp hfirst
    obtain ⟨-, hfile', hline'⟩ := mem_definedOn.mp hs
    apply Symbol.lists_congr
    · rw [howner, hfile, hfile']
    · rw [howner, hline, hline']
  simp only [ne_eq, Symbol.entries_eq_nil_iff, not_forall, not_not]
  constructor
  · rintro ⟨u, hu, hlisted⟩
    obtain ⟨s, hs, hu⟩ := (husages u).mp hu
    exact ⟨s, hs, u, hu, (hlists s hs u).mp hlisted⟩
  · rintro ⟨s, hs, u, hu, hlisted⟩
    exact ⟨u, (husages u).mpr ⟨s, hs, hu⟩, (hlists s hs u).mpr hlisted⟩

/-- A file has entries exactly if the owner of one of its lines has. -/
theorem hasEntries_iff :
    hasEntries file symbols options = true ↔
      ∃ line ∈ definitionLines (symbols.filter (·.filePath == file)), ∃ owner,
        lineOwner? (definedOn file symbols line) = some owner ∧ owner.entries options ≠ [] := by
  have hany : hasEntries file symbols options = true ↔
      ∃ s ∈ symbols, s.filePath = file ∧ s.entries options ≠ [] := by
    simp only [hasEntries, List.any_eq_true, Bool.and_eq_true, beq_iff_eq, Bool.not_eq_true',
      List.isEmpty_eq_false_iff]
  rw [hany]
  constructor
  · rintro ⟨s, hs, hfile, hentries⟩
    have hgroup : s ∈ definedOn file symbols s.position.line := mem_definedOn.mpr ⟨hs, hfile, rfl⟩
    refine ⟨s.position.line, ?_, ?_⟩
    · exact mem_definitionLines.mpr ⟨s, List.mem_filter.mpr ⟨hs, beq_iff_eq.mpr hfile⟩, rfl⟩
    · cases howner : lineOwner? (definedOn file symbols s.position.line) with
      | none =>
        rw [lineOwner?_eq_none_iff.mp howner] at hgroup
        cases hgroup
      | some owner =>
        exact ⟨owner, rfl, (entries_lineOwner?_ne_nil_iff howner).mpr ⟨s, hgroup, hentries⟩⟩
  · rintro ⟨line, -, owner, howner, hentries⟩
    obtain ⟨s, hgroup, hentries⟩ := (entries_lineOwner?_ne_nil_iff howner).mp hentries
    obtain ⟨hs, hfile, -⟩ := mem_definedOn.mp hgroup
    exact ⟨s, hs, hfile, hentries⟩

/-- Without entries there is nothing to do for a file. -/
theorem annotateTasks_eq_nil {options : AnnotateOptions}
    (h : hasEntries file symbols options.entries = false) :
    annotateTasks file symbols options = [] := by
  rw [annotateTasks]
  split
  · rw [List.filterMap_eq_nil_iff]
    intro line hline
    rw [lineTask?]
    split
    · rfl
    · next owner howner =>
      rw [if_pos]
      by_contra hentries
      rw [List.isEmpty_iff] at hentries
      rw [hasEntries_iff.mpr ⟨line, hline, owner, howner, hentries⟩] at h
      cases h
  · rfl

/-- A file has entries, asked symbol by symbol, exactly if some line of it has an owner with entries,
that is one of the definitions there with the uses of them all. Without entries annotating a file leaves
every text as it is. -/
theorem hasEntries_iff_owner (file : String) (symbols : List Symbol) (options : EntryOptions) :
    (hasEntries file symbols options = true ↔
      ∃ line ∈ definitionLines (symbols.filter (·.filePath == file)), ∃ owner,
        lineOwner? (definedOn file symbols line) = some owner ∧ owner.entries options ≠ []) ∧
    (hasEntries file symbols options = false → ∀ (text : List Char) (block : BlockOptions),
      (annotateText text file symbols ⟨options, block⟩).text = text) := by
  refine ⟨hasEntries_iff, fun h text block => ?_⟩
  rw [annotateText_text, annotateTasks_eq_nil h, List.foldl_nil]

/-- Two selectors on one line of a stylesheet. The first one is named on that line only, the second one
is used in a script. -/
def pairedSelectors : List Symbol :=
  [{ id := "", name := ".a", kind := .selector, filePath := "a.css", position := ⟨0, 0⟩,
     range := ⟨⟨0, 0⟩, ⟨0, 2⟩⟩,
     usages := [⟨"a.css", ⟨0, 8⟩, ⟨⟨0, 8⟩, ⟨0, 10⟩⟩, ".a, .b {}", .reference⟩] },
   { id := "", name := ".b", kind := .selector, filePath := "a.css", position := ⟨0, 4⟩,
     range := ⟨⟨0, 4⟩, ⟨0, 6⟩⟩,
     usages := [⟨"app.js", ⟨2, 0⟩, ⟨⟨2, 0⟩, ⟨2, 1⟩⟩, "x", .reference⟩] }]

theorem hasEntries_iff_owner_pairedSelectors :
    (∃ line ∈ definitionLines (pairedSelectors.filter (·.filePath == "a.css")), ∃ owner,
      lineOwner? (definedOn "a.css" pairedSelectors line) = some owner ∧ owner.entries {} ≠ []) ∧
    hasEntries "b.css" pairedSelectors {} = false ∧
    (annotateText ".b {}".toList "b.css" pairedSelectors ⟨{}, {}⟩).text = ".b {}".toList := by
  have hnone : hasEntries "b.css" pairedSelectors {} = false := by decide +kernel
  refine ⟨(hasEntries_iff_owner "a.css" pairedSelectors {}).1.mp ?_, hnone, ?_⟩
  · decide +kernel
  · exact (hasEntries_iff_owner "b.css" pairedSelectors {}).2 hnone _ {}

end Group

end Concordance
