import Concordance.Proofs.Definition.Moved

/-!
The definitions of a program in which lines without code change.

If no head of a definition reaches over the start or the end of the lines, every definition moves on with
the text and none is lost or added. Main statements: `Php.definitions_move` and
`JavaScript.definitions_move`.
-/

namespace Concordance

open Text Pattern

/-- No match of the pattern in the body reaches over the cut, but for white space at its front. -/
def Body.Parted (s : SourceText) (p : Pattern) (cut : Nat) : Body → Prop
  | .closed start stop => s.Parted p (start + 1) stop cut
  | _ => True

instance (s : SourceText) (p : Pattern) (cut : Nat) (body : Body) :
    Decidable (body.Parted s p cut) :=
  match body with
  | .closed start stop => inferInstanceAs (Decidable (s.Parted p (start + 1) stop cut))
  | .missing => inferInstanceAs (Decidable True)
  | .unclosed _ => inferInstanceAs (Decidable True)

/-- Neither the text with the old lines nor the one with the new lines is broken at their ends. -/
structure Change.Clear {rules : LexicalRules} (e : Change rules)
    (unbroken : SourceText → Nat → Prop) : Prop where
  start : unbroken e.before e.start
  stop : unbroken e.before e.stop
  start_after : unbroken e.after e.start
  stop_after : unbroken e.after e.swap.stop

/-- Between the braces of a class that moves on. -/
theorem Change.divides_body {rules : LexicalRules} {e : Change rules} {p : Pattern} {n : FoundName}
    {a b : Nat} (hclass : e.ClassName n) (hbody : e.before.bodyFrom n.stop 0 = .closed a b)
    (hstart : (e.before.bodyFrom n.stop 0).Parted e.before p e.start)
    (hstop : (e.before.bodyFrom n.stop 0).Parted e.before p e.stop)
    (hstart' : (e.after.bodyFrom (n.map e.move).stop 0).Parted e.after p e.start)
    (hstop' : (e.after.bodyFrom (n.map e.move).stop 0).Parted e.after p e.swap.stop) :
    e.Interior a b ∧ e.Divides p (a + 1) b ∧ e.swap.Divides p (e.move a + 1) (e.move b) := by
  have hafter : e.after.bodyFrom (n.map e.move).stop 0 = .closed (e.move a) (e.move b) :=
    (bodyFrom_move hclass.beside.stop hclass.outside 0).trans (congrArg (Body.map e.move) hbody)
  rw [hbody] at hstart hstop
  rw [hafter] at hstart' hstop'
  exact ⟨interior_of_bodyFrom hclass.outside hbody, ⟨hstart, hstop⟩, ⟨hstart', hstop'⟩⟩

namespace Php

/-- No head of a definition reaches over the cut. -/
structure Unbroken (s : SourceText) (cut : Nat) : Prop where
  heads : ∀ p ∈ [classHead, functionHead, definedConstant, declaredConstant, firedHook],
    s.Parted p 0 s.length cut
  members : ∀ n ∈ s.namesOutside classHead 0 s.length,
    (s.bodyFrom n.stop 0).Parted s methodHead cut

/-- The heads of classes and functions stand in no literal. -/
structure HeadsInCode (s : SourceText) : Prop where
  classes : ∀ n ∈ s.namesOutside classHead 0 s.length, s.OutsideLiteral n.stop
  functions : ∀ n ∈ s.namesOutside functionHead 0 s.length, s.OutsideLiteral n.matchStop

instance (s : SourceText) (cut : Nat) : Decidable (Unbroken s cut) :=
  decidable_of_iff (_ ∧ _) ⟨fun h => ⟨h.1, h.2⟩, fun h => ⟨h.heads, h.members⟩⟩

instance (s : SourceText) : Decidable (HeadsInCode s) :=
  decidable_of_iff (_ ∧ _) ⟨fun h => ⟨h.1, h.2⟩, fun h => ⟨h.classes, h.functions⟩⟩

section Move

variable {rules : LexicalRules} {e : Change rules} {path : String} {n : FoundName} {a b : Nat}

theorem divides {p : Pattern} (h : e.Clear Unbroken)
    (hp : p ∈ [classHead, functionHead, definedConstant, declaredConstant, firedHook]) :
    e.Divides p 0 e.before.length ∧ e.swap.Divides p 0 e.after.length :=
  ⟨⟨h.start.heads p hp, h.stop.heads p hp⟩, ⟨h.start_after.heads p hp, h.stop_after.heads p hp⟩⟩

/-- The methods of a class, apart from those in comments. -/
theorem methods_eq (s : SourceText) (path : String) (owner : FoundName) (start stop : Nat) :
    methods s path owner start stop =
      ((s.namesOutside methodHead (start + 1) stop).filter fun n =>
          ((s.depthTracker (start + 1)).advanceTo n.start).depth = 0).map fun n =>
        { s.symbolAt path .method n.text n.start
            ((s.bodyFrom n.matchStop 1).declarationEnd n.stop) with
          container := some (String.ofList owner.text) } := by
  rw [methods, filter_outermost_namesIn finds_methodHead]

/-- The methods of a class move on. -/
theorem methods_move (h : e.Interior a b) (hdivides : e.Divides methodHead (a + 1) b)
    (hdivides' : e.swap.Divides methodHead (e.move a + 1) (e.move b)) :
    List.Forall₂ e.Moved (methods e.before path n a b)
      (methods e.after path (n.map e.move) (e.move a) (e.move b)) := by
  obtain ⟨hbeside, hnames⟩ := Change.namesOutside_body names_methodHead h hdivides hdivides'
  have houtside : e.after.OutsideLiteral (e.move a + 1) := by
    rw [← h.move_eq]
    exact (e.outsideLiteral_move h.beside).mpr h.outside
  have hstarts : e.Starts (a + 1) (e.move a + 1) := h.move_eq ▸ h.beside.starts
  rw [methods_eq, methods_eq, hnames, Change.filter_depth_move (g := FoundName.map e.move)
    (fun _ => rfl) hstarts h.outside houtside fun n hn => (hbeside n hn).start]
  refine Change.forall₂_map fun m hm => ?_
  have hm := List.mem_of_mem_filter hm
  exact (Change.moved_symbolAt path .method (hbeside m hm).start
    (onBoundary_of_mem_namesOutside finds_methodHead h.boundary hm) _ _).inClass _

theorem functions_move (h : e.Clear Unbroken) (hcode : HeadsInCode e.before) {bodies : List Span}
    (hbodies : ∀ span ∈ bodies, e.Beside span.start ∧ e.Beside span.stop) :
    List.Forall₂ e.Moved (functions e.before path bodies)
      (functions e.after path (bodies.map (Span.map e.move))) := by
  obtain ⟨hdivides, hdivides'⟩ := divides (p := functionHead) h (by simp)
  obtain ⟨hfree, hnames⟩ := Change.freeNames_move names_functionHead hdivides hdivides' hbodies
  obtain ⟨hfound, hbeside⟩ := Change.foundFunctions_move (fun n hn => (hfree n hn).2.1)
    (fun n hn => hcode.functions n (hfree n hn).1) 1
  simp only [functions, filter_names_eq]
  rw [hnames, hfound]
  refine Change.forall₂_outermostFunctions path hbeside fun g hg => ?_
  obtain ⟨n, hn, rfl⟩ := List.mem_map.mp hg
  exact (hfree n hn).2.2

theorem constants_move (h : e.Clear Unbroken) {bodies : List Span}
    (hbodies : ∀ span ∈ bodies, e.Beside span.start ∧ e.Beside span.stop) :
    List.Forall₂ e.Moved (constants e.before path bodies)
      (constants e.after path (bodies.map (Span.map e.move))) := by
  obtain ⟨hdivides, hdivides'⟩ := divides (p := definedConstant) h (by simp)
  obtain ⟨hdefined, hnames⟩ := Change.freeNames_move names_definedConstant hdivides hdivides' hbodies
  obtain ⟨hdivides, hdivides'⟩ := divides (p := declaredConstant) h (by simp)
  obtain ⟨hdeclared, hnames'⟩ :=
    Change.freeNames_move names_declaredConstant hdivides hdivides' hbodies
  simp only [constants, List.filter_append, filter_names_eq]
  rw [hnames, hnames', ← List.map_append,
    firstPerKey_map (f := FoundName.map e.move) fun _ => rfl]
  refine Change.forall₂_map fun n hn => ?_
  have hn := (List.mem_append.mp (mem_of_mem_firstPerKey _ hn)).elim
    (fun hn => (hdefined n hn).2) fun hn => (hdeclared n hn).2
  exact Change.moved_symbolAt path .variable hn.1.start hn.2 _ _

/-- Every definition moves on with the text. -/
theorem definitions_move (h : e.Clear Unbroken) (hcode : HeadsInCode e.before) (path : String) :
    List.Forall₂ e.Moved (definitions e.before path).symbols
      (definitions e.after path).symbols := by
  obtain ⟨hdivides, hdivides'⟩ := divides (p := classHead) h (by simp)
  obtain ⟨hclasses, hspans, hbodies⟩ := Change.classes_move names_classHead path false
    (fun s => methods s path) hdivides hdivides' hcode.classes
    fun n hn hn' hclass start stop hbody => by
      obtain ⟨hinterior, hmethods, hmethods'⟩ := Change.divides_body hclass hbody
        (h.start.members n hn) (h.stop.members n hn) (h.start_after.members _ hn')
        (h.stop_after.members _ hn')
      exact methods_move hinterior hmethods hmethods'
  obtain ⟨hdivides, hdivides'⟩ := divides (p := firedHook) h (by simp)
  refine Change.forall₂_inReadingOrder (List.rel_append (List.rel_append
    (List.rel_append hclasses ?_) ?_) (Change.readEvents_move names_firedHook path hdivides hdivides'))
  · exact hspans ▸ functions_move h hcode hbodies
  · exact hspans ▸ constants_move h hbodies

end Move

end Php

namespace JavaScript

/-- The heads of the methods in the body stand in no literal. -/
def MethodsInCode (s : SourceText) : Body → Prop
  | .closed start stop =>
    ∀ n ∈ s.namesOutside methodHead (start + 1) stop, s.OutsideLiteral n.matchStop
  | _ => True

instance (s : SourceText) (body : Body) : Decidable (MethodsInCode s body) :=
  match body with
  | .closed start stop => inferInstanceAs
    (Decidable (∀ n ∈ s.namesOutside methodHead (start + 1) stop, s.OutsideLiteral n.matchStop))
  | .missing => inferInstanceAs (Decidable True)
  | .unclosed _ => inferInstanceAs (Decidable True)

/-- No head of a definition reaches over the cut. -/
structure Unbroken (s : SourceText) (cut : Nat) : Prop where
  heads : ∀ p ∈ [classHead, functionHead, assignedFunction, firedEvent],
    s.Parted p 0 s.length cut
  members : ∀ n ∈ s.namesOutside classHead 0 s.length, ∀ p ∈ [methodHead, arrowField],
    (s.bodyFrom n.stop 0).Parted s p cut

/-- The heads of classes, methods and functions stand in no literal. -/
structure HeadsInCode (s : SourceText) : Prop where
  classes : ∀ n ∈ s.namesOutside classHead 0 s.length, s.OutsideLiteral n.stop
  methods : ∀ n ∈ s.namesOutside classHead 0 s.length, MethodsInCode s (s.bodyFrom n.stop 0)
  functions : ∀ p ∈ [functionHead, assignedFunction], ∀ n ∈ s.namesOutside p 0 s.length,
    s.OutsideLiteral n.matchStop

instance (s : SourceText) (cut : Nat) : Decidable (Unbroken s cut) :=
  decidable_of_iff (_ ∧ _) ⟨fun h => ⟨h.1, h.2⟩, fun h => ⟨h.heads, h.members⟩⟩

instance (s : SourceText) : Decidable (HeadsInCode s) :=
  decidable_of_iff (_ ∧ _ ∧ _)
    ⟨fun h => ⟨h.1, h.2.1, h.2.2⟩, fun h => ⟨h.classes, h.methods, h.functions⟩⟩

section Method

/-- The method with the name, unless it is no name of a method or no block follows. -/
def method? (s : SourceText) (n : FoundName) : Option FoundFunction :=
  if controlWords.contains (String.ofList n.text) then none
  else
    match s.bodyFrom n.matchStop 1 with
    | .missing => none
    | body => some (FoundFunction.mk n (body.declarationEnd n.stop))

/-- The field with the name. -/
def arrow (s : SourceText) (n : FoundName) : FoundFunction :=
  ⟨n, (s.bodyFrom n.start 0).declarationEnd n.stop⟩

theorem foundMethods_eq (s : SourceText) (start stop : Nat) :
    foundMethods s start stop =
      ((s.namesIn methodHead (start + 1) stop).filterMap (method? s) ++
        (s.namesIn arrowField (start + 1) stop).map (arrow s)).mergeSort
          fun a b => a.name.start ≤ b.name.start :=
  rfl

theorem name_of_method? {s : SourceText} {n : FoundName} {g : FoundFunction}
    (h : method? s n = some g) : g.name = n := by
  unfold method? at h
  split at h
  · cases h
  · split at h
    · cases h
    · rw [← Option.some.inj h]

/-- The methods of a class, apart from those in comments. -/
theorem methods_eq (s : SourceText) (path : String) (owner : FoundName) (start stop : Nat) :
    methods s path owner start stop =
      (((((s.namesOutside methodHead (start + 1) stop).filterMap (method? s) ++
        (s.namesOutside arrowField (start + 1) stop).map (arrow s)).mergeSort
          fun a b => a.name.start ≤ b.name.start)).filter fun g =>
            ((s.depthTracker (start + 1)).advanceTo g.name.start).depth = 0).map fun g =>
        { s.symbolAt path .method g.name.text g.name.start g.stop with
          container := some (String.ofList owner.text) } := by
  have htrans : ∀ a b c : FoundFunction, decide (a.name.start ≤ b.name.start) = true →
      decide (b.name.start ≤ c.name.start) = true → decide (a.name.start ≤ c.name.start) = true := by
    intro a b c hab hbc
    rw [decide_eq_true_eq] at hab hbc ⊢
    exact Nat.le_trans hab hbc
  have htotal : ∀ a b : FoundFunction,
      (decide (a.name.start ≤ b.name.start) || decide (b.name.start ≤ a.name.start)) = true := by
    intro a b
    simpa using Nat.le_total a.name.start b.name.start
  have hsorted : (foundMethods s start stop).Pairwise fun a b => a.name.start ≤ b.name.start :=
    (List.pairwise_mergeSort htrans htotal _).imp of_decide_eq_true
  have hplain : ((s.namesIn methodHead (start + 1) stop).filterMap (method? s)).filter
      (fun g => !s.inComment g.name.start) =
        (s.namesOutside methodHead (start + 1) stop).filterMap (method? s) := by
    rw [List.filter_filterMap, SourceText.namesOutside, List.filterMap_filter]
    refine List.filterMap_congr fun n _ => ?_
    cases hmethod : method? s n with
    | none => simp
    | some g => simp [Option.filter_some, name_of_method? hmethod]
  have harrows : ((s.namesIn arrowField (start + 1) stop).map (arrow s)).filter
      (fun g => !s.inComment g.name.start) =
        (s.namesOutside arrowField (start + 1) stop).map (arrow s) := by
    rw [List.filter_map]
    rfl
  rw [methods, filter_outermost (fun g : FoundFunction => g.name.start) _ _ hsorted,
    foundMethods_eq, filter_mergeSort htrans htotal, List.filter_append, hplain, harrows]

end Method

section Move

variable {rules : LexicalRules} {e : Change rules} {path : String} {n : FoundName} {a b : Nat}

theorem divides {p : Pattern} (h : e.Clear Unbroken)
    (hp : p ∈ [classHead, functionHead, assignedFunction, firedEvent]) :
    e.Divides p 0 e.before.length ∧ e.swap.Divides p 0 e.after.length :=
  ⟨⟨h.start.heads p hp, h.stop.heads p hp⟩, ⟨h.start_after.heads p hp, h.stop_after.heads p hp⟩⟩

/-- A method whose name has moved on. -/
structure MovedMethod (e : Change rules) (g g' : FoundFunction) : Prop where
  name : g'.name = g.name.map e.move
  beside : e.Beside g.name.start
  boundary : onBoundary g.name.start e.before.chars = true

/-- Where a block follows a name, one follows the moved name. -/
theorem method?_move (hbeside : e.NameBeside n)
    (hboundary : onBoundary n.start e.before.chars = true)
    (hcode : e.before.OutsideLiteral n.matchStop) :
    Option.Rel (MovedMethod e) (method? e.before n) (method? e.after (n.map e.move)) := by
  have hbody : e.after.bodyFrom (n.map e.move).matchStop 1 =
      (e.before.bodyFrom n.matchStop 1).map e.move := Change.bodyFrom_move hbeside.matchStop hcode 1
  unfold method?
  rw [hbody]
  show Option.Rel _ _ (if controlWords.contains (String.ofList n.text) then none else _)
  split
  · exact .none
  · cases e.before.bodyFrom n.matchStop 1 with
    | missing => exact .none
    | unclosed start => exact .some ⟨rfl, hbeside.start, hboundary⟩
    | closed start stop => exact .some ⟨rfl, hbeside.start, hboundary⟩

/-- The methods of a class move on. -/
theorem methods_move (h : e.Interior a b) (hdivides : ∀ p ∈ [methodHead, arrowField],
      e.Divides p (a + 1) b ∧ e.swap.Divides p (e.move a + 1) (e.move b))
    (hcode : ∀ n ∈ e.before.namesOutside methodHead (a + 1) b, e.before.OutsideLiteral n.matchStop) :
    List.Forall₂ e.Moved (methods e.before path n a b)
      (methods e.after path (n.map e.move) (e.move a) (e.move b)) := by
  obtain ⟨hd, hd'⟩ := hdivides methodHead (by simp)
  obtain ⟨hbeside, hnames⟩ := Change.namesOutside_body names_methodHead h hd hd'
  obtain ⟨hd, hd'⟩ := hdivides arrowField (by simp)
  obtain ⟨hbeside', hnames'⟩ := Change.namesOutside_body names_arrowField h hd hd'
  have houtside : e.after.OutsideLiteral (e.move a + 1) := by
    rw [← h.move_eq]
    exact (e.outsideLiteral_move h.beside).mpr h.outside
  have hstarts : e.Starts (a + 1) (e.move a + 1) := h.move_eq ▸ h.beside.starts
  rw [methods_eq, methods_eq, hnames, hnames', List.filterMap_map, List.map_map]
  have hplain : List.Forall₂ (MovedMethod e)
      ((e.before.namesOutside methodHead (a + 1) b).filterMap (method? e.before))
      ((e.before.namesOutside methodHead (a + 1) b).filterMap
        (method? e.after ∘ FoundName.map e.move)) :=
    forall₂_filterMap fun m hm => method?_move (hbeside m hm)
      (onBoundary_of_mem_namesOutside finds_methodHead h.boundary hm) (hcode m hm)
  have harrows : List.Forall₂ (MovedMethod e)
      ((e.before.namesOutside arrowField (a + 1) b).map (arrow e.before))
      ((e.before.namesOutside arrowField (a + 1) b).map (arrow e.after ∘ FoundName.map e.move)) := by
    rw [List.forall₂_map_left_iff, List.forall₂_map_right_iff, List.forall₂_same]
    exact fun m hm => ⟨rfl, (hbeside' m hm).start,
      onBoundary_of_mem_namesOutside finds_arrowField h.boundary hm⟩
  have hstart : ∀ {g g'}, MovedMethod e g g' → g'.name.start = e.move g.name.start :=
    fun hg => congrArg FoundName.start hg.name
  refine List.rel_map ?_ (List.rel_filter ?_
    (forall₂_mergeSort (List.rel_append hplain harrows) ?_))
  · intro g g' hg
    obtain ⟨name, stop⟩ := g'
    obtain rfl : name = g.name.map e.move := hg.name
    exact (Change.moved_symbolAt path .method hg.beside hg.boundary _ _).inClass _
  · intro g g' hg
    dsimp only
    rw [hstart hg, Change.depth_move hstarts h.outside houtside hg.beside]
  · intro g g' hg k k' hk
    rw [hstart hg, hstart hk, decide_eq_decide]
    exact (Change.move_le_move_iff hg.beside hk.beside).symm

/-- The functions of a file, apart from those in comments. -/
theorem functions_eq (s : SourceText) (path : String) (bodies : List Span) :
    functions s path bodies =
      (outermostFunctions
        (((s.freeNames functionHead bodies).map fun n =>
            FoundFunction.mk n ((s.bodyFrom n.matchStop 1).declarationEnd n.stop)) ++
          ((s.namesOutside assignedFunction 0 s.length).filter fun n =>
              ((s.depthTracker 0).advanceTo n.start).depth = 0).map fun n =>
            FoundFunction.mk n ((s.bodyFrom n.matchStop 0).declarationEnd n.stop))).map fun g =>
        s.symbolAt path .function g.name.text g.name.start g.stop := by
  rw [functions, filter_names_eq, SourceText.names,
    filter_outermost_namesIn finds_assignedFunction]

theorem functions_move (h : e.Clear Unbroken) (hcode : HeadsInCode e.before) {bodies : List Span}
    (hbodies : ∀ span ∈ bodies, e.Beside span.start ∧ e.Beside span.stop) :
    List.Forall₂ e.Moved (functions e.before path bodies)
      (functions e.after path (bodies.map (Span.map e.move))) := by
  obtain ⟨hdivides, hdivides'⟩ := divides (p := functionHead) h (by simp)
  obtain ⟨hfree, hnames⟩ := Change.freeNames_move names_functionHead hdivides hdivides' hbodies
  obtain ⟨hfound, hdeclared⟩ := Change.foundFunctions_move (fun n hn => (hfree n hn).2.1)
    (fun n hn => hcode.functions functionHead (by simp) n (hfree n hn).1) 1
  obtain ⟨hdivides, hdivides'⟩ := divides (p := assignedFunction) h (by simp)
  obtain ⟨hbeside, hnames'⟩ := e.namesOutside_whole names_assignedFunction hdivides hdivides'
  have houter := Change.filter_depth_move (g := FoundName.map e.move) (fun _ => rfl)
    (Change.starts_zero (e := e)) (outsideLiteral_zero _) (outsideLiteral_zero _)
    fun n hn => (hbeside n hn).start
  obtain ⟨hfound', hassigned⟩ := Change.foundFunctions_move
    (fun n hn => hbeside n (List.mem_of_mem_filter hn))
    (fun n hn => hcode.functions assignedFunction (by simp) n (List.mem_of_mem_filter hn)) 0
  rw [functions_eq, functions_eq, hnames, hfound, hnames', houter, hfound', ← List.map_append]
  refine Change.forall₂_outermostFunctions path
    (fun g hg => (List.mem_append.mp hg).elim (hdeclared g) (hassigned g)) fun g hg => ?_
  rcases List.mem_append.mp hg with hg | hg
  · obtain ⟨n, hn, rfl⟩ := List.mem_map.mp hg
    exact (hfree n hn).2.2
  · obtain ⟨n, hn, rfl⟩ := List.mem_map.mp hg
    exact onBoundary_of_mem_namesOutside finds_assignedFunction (onBoundary_zero _)
      (List.mem_of_mem_filter hn)

/-- Every definition moves on with the text. -/
theorem definitions_move (h : e.Clear Unbroken) (hcode : HeadsInCode e.before) (path : String) :
    List.Forall₂ e.Moved (definitions e.before path).symbols
      (definitions e.after path).symbols := by
  obtain ⟨hdivides, hdivides'⟩ := divides (p := classHead) h (by simp)
  obtain ⟨hclasses, hspans, hbodies⟩ := Change.classes_move names_classHead path true
    (fun s => methods s path) hdivides hdivides' hcode.classes
    fun n hn hn' hclass start stop hbody => by
      have hinside := hcode.methods n hn
      rw [hbody] at hinside
      have hall := fun p hp => Change.divides_body (p := p) hclass hbody
        (h.start.members n hn p hp) (h.stop.members n hn p hp) (h.start_after.members _ hn' p hp)
        (h.stop_after.members _ hn' p hp)
      exact methods_move (hall methodHead (by simp)).1 (fun p hp => (hall p hp).2) hinside
  obtain ⟨hdivides, hdivides'⟩ := divides (p := firedEvent) h (by simp)
  refine Change.forall₂_inReadingOrder (List.rel_append (List.rel_append hclasses ?_)
    (Change.readEvents_move names_firedEvent path hdivides hdivides'))
  exact hspans ▸ functions_move h hcode hbodies

end Move

end JavaScript

end Concordance
