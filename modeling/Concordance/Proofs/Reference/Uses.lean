import Concordance.Proofs.Reference.Candidates
import Concordance.Proofs.Source.Position

/-!
The uses that a search in one text finds.

Main statements: `Language.standsIn_of_mem_usagesIn` (a use is recorded as it stands in the text,
outside comments and off the line that defines the symbol) and `pairwise_usagesIn` (no two uses are on
one line).
-/

namespace Concordance

open Text

variable {s : SourceText} {path : String} {symbol : Symbol} {u : Usage}

/-- The use starts at the byte of the text, between two characters and in no comment, and is recorded
with its place, a range from there on, and its line. -/
structure Usage.StandsIn (u : Usage) (s : SourceText) (offset : Nat) : Prop where
  boundary : onBoundary offset s.chars = true
  code : ∀ span ∈ s.comments, span.covers offset = false
  position : u.position = s.positionAt offset
  start : u.range.start = u.position
  stop : u.position.upTo u.range.stop = true
  context : u.context = String.ofList (trim (s.lineText u.position.line))

theorem lineOf_eq (s : SourceText) (offset : Nat) : s.lineOf offset = (s.positionAt offset).line := by
  rw [line_positionAt]
  exact line_spotAt offset s.chars

theorem covers_of_inComment {offset : Nat} (h : s.inComment offset = false) :
    ∀ span ∈ s.comments, span.covers offset = false := by
  rw [SourceText.inComment, SourceText.commentEnd?, Option.isSome_map, Option.isSome_eq_false_iff,
    Option.isNone_iff_eq_none, List.find?_eq_none] at h
  intro span hspan
  exact Bool.eq_false_iff.mpr (h span hspan)

theorem Candidate.usageOn?_eq_some {c : Candidate} {line : Nat}
    (h : c.usageOn? s path symbol line = some u) :
    s.inComment c.start = false ∧ symbol.isDefinitionSite path line = false ∧
      u.filePath = path ∧ u.position = s.positionAt c.start ∧ u.range = s.range c.start c.stop ∧
      u.context = String.ofList (s.contextAt c.start) := by
  unfold Candidate.usageOn? at h
  split at h
  · cases h
  · next hnot =>
    obtain ⟨kind, -, rfl⟩ := Option.map_eq_some_iff.mp h
    rw [Bool.not_eq_true, Bool.or_eq_false_iff] at hnot
    exact ⟨hnot.1, hnot.2, rfl, rfl, rfl, rfl⟩

/-- A use that is found is one of the candidates, on a line where none was seen before. -/
theorem exists_of_mem_firstPerLine {seen : List Nat} {candidates : List Candidate}
    (h : u ∈ firstPerLine s path symbol seen candidates) :
    ∃ c ∈ candidates, c.usageOn? s path symbol u.position.line = some u ∧
      u.position.line ∉ seen := by
  induction candidates generalizing seen with
  | nil => cases h
  | cons c rest ih =>
    have hlater : ∀ {more : List Nat}, seen ⊆ more →
        u ∈ firstPerLine s path symbol more rest →
        ∃ d ∈ c :: rest, d.usageOn? s path symbol u.position.line = some u ∧
          u.position.line ∉ seen := by
      intro more hmore h
      obtain ⟨d, hd, hon, hnew⟩ := ih h
      exact ⟨d, List.mem_cons_of_mem c hd, hon, fun hseen => hnew (hmore hseen)⟩
    simp only [firstPerLine] at h
    split at h
    · exact hlater (List.Subset.refl seen) h
    · next hnew =>
      split at h
      · next v hv =>
        rcases List.mem_cons.mp h with rfl | h
        · have hline : u.position.line = s.lineOf c.start := by
            rw [lineOf_eq, (Candidate.usageOn?_eq_some hv).2.2.2.1]
          rw [hline]
          exact ⟨c, List.mem_cons_self, hv, by simpa using hnew⟩
        · exact hlater (List.subset_cons_self _ seen) h
      · exact hlater (List.Subset.refl seen) h

theorem pairwise_firstPerLine (seen : List Nat) (candidates : List Candidate) :
    (firstPerLine s path symbol seen candidates).Pairwise fun a b =>
      a.position.line ≠ b.position.line := by
  induction candidates generalizing seen with
  | nil => exact List.Pairwise.nil
  | cons c rest ih =>
    simp only [firstPerLine]
    split
    · exact ih seen
    · split
      · next u hu =>
        refine List.pairwise_cons.mpr ⟨fun b hb hline => ?_, ih _⟩
        obtain ⟨-, -, -, hnew⟩ := exists_of_mem_firstPerLine hb
        rw [← hline, (Candidate.usageOn?_eq_some hu).2.2.2.1, ← lineOf_eq] at hnew
        exact hnew List.mem_cons_self
      · exact ih seen

namespace Language

variable {language : Language}

theorem exists_candidate_of_mem_usagesIn (h : u ∈ language.usagesIn s path symbol) :
    ∃ c ∈ language.candidates s symbol, c.usageOn? s path symbol u.position.line = some u := by
  obtain ⟨c, hc, hon, -⟩ := exists_of_mem_firstPerLine (List.mem_mergeSort.mp h)
  exact ⟨c, hc, hon⟩

/-- A use names the file that was searched, and is not on the line that defines the symbol. -/
theorem filePath_of_mem_usagesIn (h : u ∈ language.usagesIn s path symbol) :
    u.filePath = path ∧ symbol.isDefinitionSite path u.position.line = false := by
  obtain ⟨c, -, hon⟩ := exists_candidate_of_mem_usagesIn h
  obtain ⟨-, hsite, hpath, -⟩ := Candidate.usageOn?_eq_some hon
  exact ⟨hpath, hsite⟩

/-- A use is recorded as it stands in the text. -/
theorem standsIn_of_mem_usagesIn (h : u ∈ language.usagesIn s path symbol) :
    ∃ offset, u.StandsIn s offset := by
  obtain ⟨c, hc, hon⟩ := exists_candidate_of_mem_usagesIn h
  obtain ⟨hcode, -, -, hposition, hrange, hcontext⟩ := Candidate.usageOn?_eq_some hon
  have hboundary := onBoundary_of_mem_candidates hc
  refine ⟨c.start, hboundary, covers_of_inComment hcode, hposition, ?_, ?_, ?_⟩
  · rw [hrange, hposition]
    rfl
  · rw [hrange, hposition]
    exact upTo_positionAt hboundary (Nat.le_max_right c.stop c.start)
  · rw [hcontext, hposition, ← lineOf_eq]
    rfl

/-- No two uses are on one line. -/
theorem pairwise_usagesIn (language : Language) (s : SourceText) (path : String) (symbol : Symbol) :
    (language.usagesIn s path symbol).Pairwise fun a b => a.position.line ≠ b.position.line :=
  (List.Perm.pairwise_iff Ne.symm (List.mergeSort_perm _ _)).mpr (pairwise_firstPerLine [] _)

end Language

end Concordance
