import Concordance.Definition.Basic

/-!
The classes of a file that are read, and what is read with them.

Of the classes that are found some are passed over: those in comments and, where classes are not nested,
those in a body read before. Each of the others is followed by its members, and its body counts for the
ones behind it. Main statements: `readClasses_eq` (what is read, given the classes that are),
`mem_readClasses_iff` and `pairwise_keptClasses` (no class that is read lies in the body of an earlier
one).
-/

namespace Concordance

variable {s : SourceText} {path : String} {nested : Bool}
  {members : FoundName → Nat → Nat → List Symbol} {bodies : List Span} {names : List FoundName}
  {n : FoundName} {symbol : Symbol}

/-- The stretch that the body of a class takes in a text of the length. -/
def Body.spans (length : Nat) : Body → List Span
  | .missing => []
  | .unclosed start => [⟨start, length⟩]
  | .closed start stop => [⟨start, stop⟩]

/-- The members that are read in the body of a class. -/
def Body.symbols (read : Nat → Nat → List Symbol) : Body → List Symbol
  | .closed start stop => read start stop
  | _ => []

theorem Body.mem_symbols_iff {read : Nat → Nat → List Symbol} {body : Body} :
    symbol ∈ body.symbols read ↔ ∃ start stop, body = .closed start stop ∧ symbol ∈ read start stop := by
  cases body with
  | missing => simp [Body.symbols]
  | unclosed start => simp [Body.symbols]
  | closed start stop =>
    constructor
    · exact fun h => ⟨start, stop, rfl, h⟩
    · rintro ⟨start', stop', heq, h⟩
      obtain ⟨rfl, rfl⟩ := Body.closed.inj heq
      exact h

section Passed

variable {rest : List FoundName}

/-- The class with the name is none, or lies in one that is read as a whole. -/
def passesClass (s : SourceText) (nested : Bool) (bodies : List Span) (n : FoundName) : Bool :=
  s.inComment n.start || (!nested && bodies.any (·.strictlyCovers n.start))

theorem readClasses_of_passes (h : passesClass s nested bodies n = true) :
    readClasses s path nested members bodies (n :: rest) =
      readClasses s path nested members bodies rest := by
  rw [readClasses]
  exact if_pos h

/-- A class is followed by its members and by the classes behind it. -/
theorem readClasses_cons (path : String) (members : FoundName → Nat → Nat → List Symbol)
    (rest : List FoundName) (h : passesClass s nested bodies n = false) :
    (readClasses s path nested members bodies (n :: rest)).symbols =
        s.symbolAt path .type n.text n.start ((s.bodyFrom n.stop 0).declarationEnd n.stop) ::
          ((s.bodyFrom n.stop 0).symbols (members n) ++ (readClasses s path nested members
            (bodies ++ (s.bodyFrom n.stop 0).spans s.length) rest).symbols) ∧
      (readClasses s path nested members bodies (n :: rest)).bodies =
        (readClasses s path nested members
          (bodies ++ (s.bodyFrom n.stop 0).spans s.length) rest).bodies := by
  have hneg : ¬ (s.inComment n.start || (!nested && bodies.any (·.strictlyCovers n.start))) = true :=
    Bool.eq_false_iff.mp h
  rw [readClasses, if_neg hneg]
  cases s.bodyFrom n.stop 0 with
  | missing => simp [Body.symbols, Body.spans]
  | unclosed start => simp [Body.symbols, Body.spans]
  | closed start stop => simp [Body.symbols, Body.spans]

end Passed

section Kept

/-- The class with the name. -/
def classSymbol (s : SourceText) (path : String) (n : FoundName) : Symbol :=
  s.symbolAt path .type n.text n.start ((s.bodyFrom n.stop 0).declarationEnd n.stop)

/-- The names of the classes that are read. -/
def keptClasses (s : SourceText) (nested : Bool) : List Span → List FoundName → List FoundName
  | _, [] => []
  | bodies, n :: rest =>
    if passesClass s nested bodies n then keptClasses s nested bodies rest
    else n :: keptClasses s nested (bodies ++ (s.bodyFrom n.stop 0).spans s.length) rest

theorem keptClasses_sublist (s : SourceText) (nested : Bool) (bodies : List Span)
    (names : List FoundName) : (keptClasses s nested bodies names).Sublist names := by
  induction names generalizing bodies with
  | nil => exact List.Sublist.refl []
  | cons n rest ih =>
    rw [keptClasses]
    split
    · exact (ih bodies).cons n
    · exact (ih _).cons_cons n

/-- Each class that is read is followed by its members, and its body is kept. -/
theorem readClasses_eq (s : SourceText) (path : String) (nested : Bool)
    (members : FoundName → Nat → Nat → List Symbol) (bodies : List Span) (names : List FoundName) :
    (readClasses s path nested members bodies names).symbols =
        (keptClasses s nested bodies names).flatMap (fun n =>
          classSymbol s path n :: (s.bodyFrom n.stop 0).symbols (members n)) ∧
      (readClasses s path nested members bodies names).bodies =
        bodies ++ (keptClasses s nested bodies names).flatMap
          fun n => (s.bodyFrom n.stop 0).spans s.length := by
  induction names generalizing bodies with
  | nil => exact ⟨rfl, (List.append_nil bodies).symm⟩
  | cons n rest ih =>
    cases hpasses : passesClass s nested bodies n with
    | true =>
      rw [readClasses_of_passes hpasses, keptClasses, if_pos hpasses]
      exact ih bodies
    | false =>
      obtain ⟨hsymbols, hbodies⟩ := readClasses_cons path members rest hpasses
      obtain ⟨ihsymbols, ihbodies⟩ := ih (bodies ++ (s.bodyFrom n.stop 0).spans s.length)
      rw [keptClasses, if_neg (by simp [hpasses]), List.flatMap_cons, List.flatMap_cons, hsymbols,
        hbodies, ihsymbols, ihbodies, List.append_assoc]
      exact ⟨rfl, rfl⟩

/-- What is read with the classes is one of the classes or a member in the body of one. -/
theorem mem_readClasses_iff :
    symbol ∈ (readClasses s path nested members bodies names).symbols ↔
      ∃ n ∈ keptClasses s nested bodies names, symbol = classSymbol s path n ∨
        ∃ start stop, s.bodyFrom n.stop 0 = .closed start stop ∧ symbol ∈ members n start stop := by
  rw [(readClasses_eq s path nested members bodies names).1, List.mem_flatMap]
  simp only [List.mem_cons, Body.mem_symbols_iff]

/-- No class that is read lies in one of the bodies read before. -/
theorem not_covered_of_mem_keptClasses (h : n ∈ keptClasses s false bodies names) :
    ∀ span ∈ bodies, span.strictlyCovers n.start = false := by
  induction names generalizing bodies with
  | nil => cases h
  | cons n' rest ih =>
    rw [keptClasses] at h
    split at h
    · exact ih h
    · next hpasses =>
      rcases List.mem_cons.mp h with rfl | h
      · simp only [passesClass, Bool.not_false, Bool.true_and, Bool.or_eq_true, not_or,
          List.any_eq_true, not_exists, not_and, Bool.not_eq_true] at hpasses
        exact hpasses.2
      · exact fun span hspan => ih h span (List.mem_append_left _ hspan)

/-- No class that is read lies in the body of an earlier one. -/
theorem pairwise_keptClasses (s : SourceText) (bodies : List Span) (names : List FoundName) :
    (keptClasses s false bodies names).Pairwise fun n n' =>
      ∀ span ∈ (s.bodyFrom n.stop 0).spans s.length, span.strictlyCovers n'.start = false := by
  induction names generalizing bodies with
  | nil => exact List.Pairwise.nil
  | cons n rest ih =>
    rw [keptClasses]
    split
    · exact ih bodies
    · refine List.pairwise_cons.mpr ⟨fun n' hn' span hspan => ?_, ih _⟩
      exact not_covered_of_mem_keptClasses hn' span (List.mem_append_right bodies hspan)

end Kept

end Concordance
