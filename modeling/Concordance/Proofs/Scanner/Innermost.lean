import Concordance.Scanner

/-!
Which definition a session finds at a place.

Of two ranges the inner one is chosen, and a fold of such choices ends with one to which all the
others give way (`givesWay_foldl_inner`), whether or not the ranges nest. A range that holds the
place and lies properly within the chosen one would not have given way to it
(`GivesWay.not_inside`), so the definition found is an innermost one. Main statement:
`symbolAt?_innermost`.
-/

namespace Concordance

namespace Position

variable {a b : Position}

theorem upTo_of_before (h : a.before b = true) : a.upTo b = true := by
  simp only [before, upTo, Bool.or_eq_true, Bool.and_eq_true, decide_eq_true_eq, beq_iff_eq] at *
  omega

theorem before_or_eq (h : a.upTo b = true) : a.before b = true ∨ a = b := by
  cases hbefore : a.before b with
  | true => exact Or.inl rfl
  | false => exact Or.inr (upTo_antisymm h ((upTo_iff_not_before b a).mpr hbefore))

end Position

namespace Range

variable {a b c : Range} {p : Position}

/-- The other range starts later or, from the same start, ends no later. -/
def GivesWay (a b : Range) : Prop :=
  a.start.before b.start = true ∨ a.start = b.start ∧ b.stop.upTo a.stop = true

/-- Every place of the range lies in the other one, which holds further places. -/
def Inside (a b : Range) : Prop :=
  (∀ p, a.contains p = true → b.contains p = true) ∧
    ∃ p, b.contains p = true ∧ a.contains p = false

theorem GivesWay.refl (a : Range) : a.GivesWay a :=
  Or.inr ⟨rfl, Position.upTo_refl a.stop⟩

theorem GivesWay.trans (hab : a.GivesWay b) (hbc : b.GivesWay c) : a.GivesWay c := by
  have before_trans : a.start.before b.start = true → b.start.before c.start = true →
      a.start.before c.start = true := by
    simp only [Position.before, Bool.or_eq_true, Bool.and_eq_true, decide_eq_true_eq, beq_iff_eq]
    omega
  rcases hab with hab | ⟨hstart, hab⟩
  · rcases hbc with hbc | ⟨hstart, -⟩
    · exact Or.inl (before_trans hab hbc)
    · exact Or.inl (hstart ▸ hab)
  · rcases hbc with hbc | ⟨hstart', hbc⟩
    · exact Or.inl (hstart ▸ hbc)
    · exact Or.inr ⟨hstart.trans hstart', Position.upTo_trans hbc hab⟩

/-- A range that holds a place starts no earlier and ends no later than one it lies within, and it is
not the same. -/
theorem Inside.bounds (h : a.Inside b) (hp : a.contains p = true) :
    b.start.upTo a.start = true ∧ a.stop.upTo b.stop = true ∧ a ≠ b := by
  obtain ⟨hwithin, q, hb, ha⟩ := h
  obtain ⟨hstart, hstop⟩ := (contains_iff a p).mp hp
  have hends := Position.upTo_trans hstart hstop
  have hfirst : a.contains a.start = true :=
    (contains_iff a a.start).mpr ⟨Position.upTo_refl a.start, hends⟩
  have hlast : a.contains a.stop = true :=
    (contains_iff a a.stop).mpr ⟨hends, Position.upTo_refl a.stop⟩
  have hstart' := ((contains_iff b _).mp (hwithin _ hfirst)).1
  have hstop' := ((contains_iff b _).mp (hwithin _ hlast)).2
  refine ⟨hstart', hstop', ?_⟩
  rintro rfl
  exact absurd (hb.symm.trans ha) (by decide)

/-- What gives way to a range does not lie properly within it. -/
theorem GivesWay.not_inside (h : a.GivesWay b) (hp : a.contains p = true) : ¬ a.Inside b := by
  intro hinside
  obtain ⟨hstart, hstop, hne⟩ := hinside.bounds hp
  rcases h with hbefore | ⟨hsame, hupTo⟩
  · rw [Position.upTo_iff_not_before, hbefore] at hstart
    cases hstart
  · refine hne ?_
    cases a
    cases b
    simp only at hsame hupTo hstop
    rw [hsame, Position.upTo_antisymm hstop hupTo]

end Range

namespace Scanner

/-- Of two definitions one is chosen, and the other one gives way. -/
theorem inner_cases (a b : Symbol) :
    inner a b = a ∧ b.range.GivesWay a.range ∨ inner a b = b ∧ a.range.GivesWay b.range := by
  unfold inner
  split
  · next h =>
    refine Or.inl ⟨rfl, ?_⟩
    simp only [Bool.or_eq_true, Bool.and_eq_true, beq_iff_eq] at h
    rcases h with hbefore | ⟨hstart, hstop⟩
    · exact Or.inl hbefore
    · exact Or.inr ⟨hstart.symm, Position.upTo_of_before hstop⟩
  · next h =>
    refine Or.inr ⟨rfl, ?_⟩
    simp only [Bool.or_eq_true, Bool.and_eq_true, beq_iff_eq, not_or, not_and,
      Bool.not_eq_true] at h
    obtain ⟨hstart, hstop⟩ := h
    rcases Position.before_or_eq ((Position.upTo_iff_not_before _ _).mpr hstart) with hbefore | heq
    · exact Or.inl hbefore
    · exact Or.inr ⟨heq, (Position.upTo_iff_not_before _ _).mpr (hstop heq)⟩

/-- A fold of choices ends with one of the definitions, and all of them give way to it. -/
theorem givesWay_foldl_inner (first : Symbol) (rest : List Symbol) :
    rest.foldl inner first ∈ first :: rest ∧
      ∀ e ∈ first :: rest, e.range.GivesWay (rest.foldl inner first).range := by
  induction rest generalizing first with
  | nil => simpa using Range.GivesWay.refl first.range
  | cons next rest ih =>
    obtain ⟨hmem, hall⟩ := ih (inner first next)
    have hchosen := hall _ List.mem_cons_self
    have hrest : ∀ e ∈ rest, e.range.GivesWay (rest.foldl inner (inner first next)).range :=
      fun e he => hall e (List.mem_cons_of_mem _ he)
    rw [List.foldl_cons]
    rcases inner_cases first next with ⟨heq, hway⟩ | ⟨heq, hway⟩
    · rw [heq] at hmem hchosen hrest ⊢
      have hmem' : rest.foldl inner first ∈ first :: next :: rest :=
        (List.mem_cons.mp hmem).elim (fun h => by simp [h]) fun h => by simp [h]
      refine ⟨hmem', ?_⟩
      simp only [List.forall_mem_cons]
      exact ⟨hchosen, hway.trans hchosen, hrest⟩
    · rw [heq] at hmem hchosen hrest ⊢
      refine ⟨List.mem_cons_of_mem first hmem, ?_⟩
      simp only [List.forall_mem_cons]
      exact ⟨hway.trans hchosen, hchosen, hrest⟩

/-- The definitions of the file that hold the place decide what is found: nothing if there are none,
otherwise one of them to which all the others give way. -/
theorem symbolAt?_cases (s : Scanner) (path : String) (place : Position) :
    (s.symbolAt? path place = none ∧ ∀ e ∈ s.symbolsIn path, e.range.contains place = false) ∨
      ∃ d ∈ s.symbolsIn path, s.symbolAt? path place = some d ∧ d.range.contains place = true ∧
        ∀ e ∈ s.symbolsIn path, e.range.contains place = true → e.range.GivesWay d.range := by
  have hlisted : ∀ {e}, e ∈ s.symbolsIn path ∧ e.range.contains place = true ↔
      e ∈ (s.listed path).filter (·.range.contains place) := by
    intro e
    rw [symbolsIn, List.mem_mergeSort, List.mem_filter]
  unfold symbolAt?
  cases hfound : (s.listed path).filter (·.range.contains place) with
  | nil =>
    refine Or.inl ⟨rfl, fun e he => ?_⟩
    rw [hfound] at hlisted
    simpa [he] using hlisted (e := e)
  | cons first rest =>
    rw [hfound] at hlisted
    obtain ⟨hmem, hall⟩ := givesWay_foldl_inner first rest
    obtain ⟨hin, hholds⟩ := hlisted.mpr hmem
    exact Or.inr ⟨_, hin, rfl, hholds, fun e he hplace => hall e (hlisted.mp ⟨he, hplace⟩)⟩

/-- In every session, nothing is found at a place exactly if no definition listed for the file has
a range that holds the place. What is found otherwise is listed for the file, its range holds the
place, and the range of no other such definition lies properly within it. -/
theorem symbolAt?_innermost (s : Scanner) (path : String) (place : Position) :
    (s.symbolAt? path place = none ↔
      ∀ d ∈ s.symbolsIn path, d.range.contains place = false) ∧
    ∀ d, s.symbolAt? path place = some d →
      d ∈ s.symbolsIn path ∧ d.range.contains place = true ∧
        ∀ e ∈ s.symbolsIn path, e.range.contains place = true → ¬ e.range.Inside d.range := by
  rcases symbolAt?_cases s path place with ⟨hnone, hall⟩ | ⟨d, hd, hsome, hplace, hall⟩
  · refine ⟨by simpa only [hnone, true_iff] using hall, ?_⟩
    intro d hd
    rw [hnone] at hd
    cases hd
  · refine ⟨?_, ?_⟩
    · constructor
      · intro hnone
        rw [hsome] at hnone
        cases hnone
      · intro hholds
        rw [hholds d hd] at hplace
        cases hplace
    · intro d' hd'
      obtain rfl := Option.some.inj (hsome.symm.trans hd')
      exact ⟨hd, hplace, fun e he hheld => (hall e he hheld).not_inside hheld⟩

/-- Three definitions of one file: a long range, a shorter one from the same start, and one that
starts within both and ends behind the shorter one. -/
def overlapping : Scanner :=
  let symbol (name : String) (range : Range) : Symbol :=
    { id := name, name := name, kind := .function, filePath := "a.js", range := range,
      position := range.start }
  ({} : Scanner).store "a.js" [symbol "short" ⟨⟨0, 0⟩, ⟨2, 0⟩⟩, symbol "long" ⟨⟨0, 0⟩, ⟨9, 0⟩⟩,
    symbol "late" ⟨⟨1, 4⟩, ⟨5, 0⟩⟩] 0

theorem symbolAt?_innermost_overlapping :
    overlapping.symbolAt? "a.js" ⟨9, 1⟩ = none ∧
      ∃ d, overlapping.symbolAt? "a.js" ⟨1, 9⟩ = some d ∧ d.name = "late" ∧
        ∀ e ∈ overlapping.symbolsIn "a.js",
          e.range.contains ⟨1, 9⟩ = true → ¬ e.range.Inside d.range := by
  have hname : (overlapping.symbolAt? "a.js" ⟨1, 9⟩).map Symbol.name = some "late" := by
    decide +kernel
  obtain ⟨d, hd, hlate⟩ := Option.map_eq_some_iff.mp hname
  have hinner := (symbolAt?_innermost overlapping "a.js" ⟨1, 9⟩).2 d hd
  exact ⟨by decide +kernel, d, hd, hlate, hinner.2.2⟩

end Scanner

end Concordance
