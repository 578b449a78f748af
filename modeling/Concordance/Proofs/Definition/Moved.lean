import Concordance.Proofs.Definition.Commented
import Concordance.Proofs.Definition.HeadLines
import Concordance.Proofs.Definition.Lead
import Concordance.Proofs.Keyed

/-!
Definitions in a text in which lines without code change.

A definition moves on with the text: it keeps its name, its kind and its container, and stands where
its name has moved. Main statements: `readClasses_move`, `forall₂_inReadingOrder`.
-/

namespace Concordance

open Text Pattern

section Lists

variable {α β : Type} {R : α → β → Prop}

/-- Sorting keeps two lists in step if their orders agree. -/
theorem forall₂_mergeSort {le : α → α → Bool} {le' : β → β → Bool} {xs : List α} {ys : List β}
    (h : List.Forall₂ R xs ys)
    (hle : ∀ a a', R a a' → ∀ b b', R b b' → le a b = le' a' b') :
    List.Forall₂ R (xs.mergeSort le) (ys.mergeSort le') := by
  -- sort the pairs by their first parts, or as well by their second parts
  obtain ⟨hlength, hzip⟩ := List.forall₂_iff_zip.mp h
  have hpairs : ∀ z ∈ xs.zip ys, R z.1 z.2 := fun z hz => hzip hz
  have hfst : (xs.zip ys).map Prod.fst = xs := List.map_fst_zip hlength.le
  have hsnd : (xs.zip ys).map Prod.snd = ys := List.map_snd_zip hlength.ge
  have hleft : ((xs.zip ys).mergeSort fun z w => le z.1 w.1).map Prod.fst = xs.mergeSort le := by
    rw [List.map_mergeSort (s := le) (fun _ _ _ _ => rfl), hfst]
  have hright : ((xs.zip ys).mergeSort fun z w => le z.1 w.1).map Prod.snd = ys.mergeSort le' := by
    rw [List.map_mergeSort (s := le') fun z hz w hw => hle _ _ (hpairs z hz) _ _ (hpairs w hw), hsnd]
  rw [← hleft, ← hright, List.forall₂_map_left_iff, List.forall₂_map_right_iff,
    List.forall₂_same]
  exact fun z hz => hpairs z (List.mem_mergeSort.mp hz)

theorem forall₂_filterMap {γ : Type} {f : γ → Option α} {g : γ → Option β} {xs : List γ}
    (h : ∀ x ∈ xs, Option.Rel R (f x) (g x)) :
    List.Forall₂ R (xs.filterMap f) (xs.filterMap g) := by
  induction xs with
  | nil => exact .nil
  | cons x xs ih =>
    obtain ⟨hx, hxs⟩ := List.forall_mem_cons.mp h
    rw [List.filterMap_cons, List.filterMap_cons]
    generalize f x = y, g x = z at hx
    cases hx with
    | none => exact ih hxs
    | some hab => exact .cons hab (ih hxs)

theorem any_map_congr {g : α → β} {p : β → Bool} {q : α → Bool} {xs : List α}
    (h : ∀ x ∈ xs, p (g x) = q x) : (xs.map g).any p = xs.any q := by
  induction xs with
  | nil => rfl
  | cons x xs ih =>
    obtain ⟨hx, hxs⟩ := List.forall_mem_cons.mp h
    rw [List.map_cons, List.any_cons, List.any_cons, hx, ih hxs]

/-- The first value for each key, in two lists in step. -/
theorem forall₂_firstPerKey {κ : Type} [BEq κ] {key : α → κ} {key' : β → κ} {xs : List α}
    {ys : List β} (h : List.Forall₂ R xs ys) (hkey : ∀ a b, R a b → key' b = key a)
    (seen : List κ) : List.Forall₂ R (firstPerKey key seen xs) (firstPerKey key' seen ys) := by
  induction h generalizing seen with
  | nil => exact .nil
  | cons hab _ ih =>
    rw [firstPerKey, firstPerKey, hkey _ _ hab]
    split
    · exact ih seen
    · exact .cons hab (ih _)

theorem firstPerKey_map {κ : Type} [BEq κ] {key : α → κ} {f : α → α} (hf : ∀ a, key (f a) = key a)
    (seen : List κ) (xs : List α) :
    firstPerKey key seen (xs.map f) = (firstPerKey key seen xs).map f := by
  induction xs generalizing seen with
  | nil => rfl
  | cons a xs ih =>
    rw [List.map_cons, firstPerKey, firstPerKey, hf]
    split
    · exact ih seen
    · rw [List.map_cons, ih]

end Lists

/-- The function with its name and its end moved. -/
def FoundFunction.map (f : Nat → Nat) (g : FoundFunction) : FoundFunction :=
  ⟨g.name.map f, f g.stop⟩

/-- What a definition is known by: its name, its kind and its container. -/
def Symbol.outline (symbol : Symbol) : String × SymbolKind × Option String :=
  (symbol.name, symbol.kind, symbol.container)

theorem position_symbolAt (s : SourceText) (path : String) (kind : SymbolKind) (name : List Char)
    (start stop : Nat) : (s.symbolAt path kind name start stop).position = s.positionAt start :=
  rfl

theorem outline_symbolAt (s : SourceText) (path : String) (kind : SymbolKind) (name : List Char)
    (start stop : Nat) :
    (s.symbolAt path kind name start stop).outline = (String.ofList name, kind, none) :=
  rfl

theorem outline_define (name : String) (kind : SymbolKind) (path : String) (position : Position)
    (range : Range) : (Symbol.define name kind path position range).outline = (name, kind, none) :=
  rfl

section Places

variable {p body : Pattern} {front back : List Pattern} {f : Char → Bool} {s : SourceText}
  {n : FoundName} {lo hi : Nat}

theorem onBoundary_length (s : SourceText) : onBoundary s.length s.chars = true := by
  simpa [SourceText.length] using onBoundary_byteLength s.chars []

theorem outsideLiteral_zero (s : SourceText) : s.OutsideLiteral 0 := by
  rw [SourceText.OutsideLiteral, SourceText.readingAt, takeBytes_zero]
  rfl

theorem onBoundary_of_mem_namesOutside (hp : p.Finds front body back f)
    (hlo : onBoundary lo s.chars = true) (h : n ∈ s.namesOutside p lo hi) :
    onBoundary n.start s.chars = true := by
  obtain ⟨lead, rest, hchars, hlead⟩ := onBoundary_iff.mp hlo
  exact onBoundary_of_mem_namesIn hp hchars hlead (List.mem_of_mem_filter h)

/-- What lies outside all braces, of values some of which are dropped. -/
theorem filter_outermost {α : Type} (offset : α → Nat) (t : DepthTracker) (p : α → Bool)
    {xs : List α} (h : xs.Pairwise fun a b => offset a ≤ offset b) :
    (t.outermost offset xs).filter p =
      (xs.filter p).filter fun a => (t.advanceTo (offset a)).depth = 0 := by
  rw [outermost_eq_filter offset t h, List.filter_filter, List.filter_filter]
  exact List.filter_congr fun a _ => Bool.and_comm _ _

/-- The names outside all braces and outside comments. -/
theorem filter_outermost_namesIn (hp : p.Finds front body back f) (t : DepthTracker) :
    (t.outermost FoundName.start (s.namesIn p lo hi)).filter (fun n => !s.inComment n.start) =
      (s.namesOutside p lo hi).filter fun n => (t.advanceTo n.start).depth = 0 := by
  refine filter_outermost FoundName.start t _ ?_
  refine (pairwise_start_namesIn hp s lo hi).imp ?_
  exact fun h => h.le

/-- The names in the whole text that stand outside comments and outside the stretches. -/
def SourceText.freeNames (s : SourceText) (p : Pattern) (bodies : List Span) : List FoundName :=
  (s.namesOutside p 0 s.length).filter fun n => !bodies.any (·.strictlyCovers n.start)

theorem filter_names_eq (s : SourceText) (p : Pattern) (bodies : List Span) :
    (s.names p).filter
        (fun n => !bodies.any (·.strictlyCovers n.start) && !s.inComment n.start) =
      s.freeNames p bodies :=
  List.filter_filter.symm

end Places

namespace Change

variable {rules : LexicalRules} (e : Change rules)

/-- The definition that has moved on with the text. -/
structure Moved (a b : Symbol) : Prop where
  outline : b.outline = a.outline
  site : ∃ o, e.Beside o ∧ a.StandsAt e.before o ∧ b.StandsAt e.after (e.move o)

variable {e} {a b : Symbol} {n : FoundName}

theorem Moved.name (h : e.Moved a b) : b.name = a.name :=
  congrArg Prod.fst h.outline

theorem moved_of_beside {o : Nat} (hbeside : e.Beside o)
    (hboundary : onBoundary o e.before.chars = true) (ha : a.position = e.before.positionAt o)
    (hb : b.position = e.after.positionAt (e.move o)) (houtline : b.outline = a.outline) :
    e.Moved a b :=
  ⟨houtline, o, hbeside, ⟨hboundary, ha⟩, ⟨by rwa [e.onBoundary_move hbeside], hb⟩⟩

theorem Moved.inClass (h : e.Moved a b) (container : Option String) :
    e.Moved { a with container } { b with container } := by
  obtain ⟨houtline, o, hbeside, ha, hb⟩ := h
  refine ⟨?_, o, hbeside, ⟨ha.boundary, ha.position⟩, ⟨hb.boundary, hb.position⟩⟩
  obtain ⟨hname, hkind⟩ := Prod.mk.inj houtline
  rw [Symbol.outline, Symbol.outline, hname, (Prod.mk.inj hkind).1]

/-- Definitions that move on keep their order. -/
theorem forall₂_inReadingOrder {as bs : List Symbol} (h : List.Forall₂ e.Moved as bs) :
    List.Forall₂ e.Moved (inReadingOrder as) (inReadingOrder bs) := by
  refine forall₂_mergeSort h ?_
  rintro a a' ⟨-, o, hbeside, ha, ha'⟩ b b' ⟨-, q, hbeside', hb, hb'⟩
  rw [ha.position, hb.position, ha'.position, hb'.position,
    upTo_positionAt_eq ha.boundary hb.boundary, upTo_positionAt_eq ha'.boundary hb'.boundary,
    decide_eq_decide]
  exact (move_le_move_iff hbeside hbeside').symm

/-- Definitions that move on are known by the same. -/
theorem map_outline_eq {as bs : List Symbol} (h : List.Forall₂ e.Moved as bs) :
    bs.map Symbol.outline = as.map Symbol.outline := by
  induction h with
  | nil => rfl
  | cons hab _ ih => rw [List.map_cons, List.map_cons, ih, hab.outline]

/-- Names that move on make definitions that do. -/
theorem forall₂_map {α : Type} {xs : List α} {f : α → α} {make make' : α → Symbol}
    (h : ∀ x ∈ xs, e.Moved (make x) (make' (f x))) :
    List.Forall₂ e.Moved (xs.map make) ((xs.map f).map make') := by
  rw [List.map_map, List.forall₂_map_left_iff, List.forall₂_map_right_iff, List.forall₂_same]
  exact h

section Names

variable {p body : Pattern} {front back : List Pattern} {f : Char → Bool}

variable (e) in
/-- In the whole text too the names outside comments move on. -/
theorem namesOutside_whole (hp : p.Names front body back f)
    (hdivides : e.Divides p 0 e.before.length) (hdivides' : e.swap.Divides p 0 e.after.length) :
    (∀ n ∈ e.before.namesOutside p 0 e.before.length, e.NameBeside n) ∧
      e.after.namesOutside p 0 e.after.length =
        (e.before.namesOutside p 0 e.before.length).map (FoundName.map e.move) := by
  obtain ⟨hlength, hbeside⟩ := length_after (e := e)
  rw [hlength] at hdivides' ⊢
  exact e.namesOutside_move hp (Or.inl ⟨Nat.zero_le _, rfl⟩) (onBoundary_zero _)
    (onBoundary_length _) (Nat.zero_le _) hbeside hdivides hdivides'

end Names

section Classes

variable {members members' : FoundName → Nat → Nat → List Symbol}

theorem moved_symbolAt (path : String) (kind : SymbolKind) (hbeside : e.Beside n.start)
    (hboundary : onBoundary n.start e.before.chars = true) (stop stop' : Nat) :
    e.Moved (e.before.symbolAt path kind n.text n.start stop)
      (e.after.symbolAt path kind n.text (e.move n.start) stop') :=
  moved_of_beside hbeside hboundary (position_symbolAt ..) (position_symbolAt ..)
    ((outline_symbolAt ..).trans (outline_symbolAt ..).symm)

/-- A class whose name stands in code, beside the lines, and is followed by code. -/
structure ClassName (e : Change rules) (n : FoundName) : Prop where
  beside : e.NameBeside n
  boundary : onBoundary n.start e.before.chars = true
  outside : e.before.OutsideLiteral n.stop

theorem any_strictlyCovers_move {bodies : List Span} {o : Nat} (ho : e.Beside o)
    (h : ∀ span ∈ bodies, e.Beside span.start ∧ e.Beside span.stop) :
    (bodies.map (Span.map e.move)).any (·.strictlyCovers (e.move o)) =
      bodies.any (·.strictlyCovers o) := by
  refine any_map_congr fun span hspan => ?_
  obtain ⟨hstart, hstop⟩ := h span hspan
  show (decide (e.move span.start < e.move o) && decide (e.move o < e.move span.stop)) = _
  rw [decide_eq_decide.mpr (move_lt_move_iff hstart ho),
    decide_eq_decide.mpr (move_lt_move_iff ho hstop)]
  rfl

/-- The stretch that a body takes moves on with it. -/
theorem spans_move {o : Nat} (h : e.before.OutsideLiteral o) :
    ((e.before.bodyFrom o 0).map e.move).spans e.after.length =
        ((e.before.bodyFrom o 0).spans e.before.length).map (Span.map e.move) ∧
      ∀ span ∈ (e.before.bodyFrom o 0).spans e.before.length,
        e.Beside span.start ∧ e.Beside span.stop := by
  obtain ⟨hlength, hend⟩ := length_after (e := e)
  rw [bodyFrom_eq h, hlength]
  rcases bodyIn_cases e.before.visibleCode o 0 with hbody | ⟨x, hx, hbody⟩ |
    ⟨x, hx, y, hy, -, -, -, hbody⟩
  · rw [hbody]
    exact ⟨rfl, by simp [Body.spans]⟩
  · rw [hbody]
    refine ⟨rfl, fun span hspan => ?_⟩
    obtain rfl := List.mem_singleton.mp hspan
    exact ⟨(e.beside_of_mem_visibleCode hx).1, hend⟩
  · rw [hbody]
    refine ⟨rfl, fun span hspan => ?_⟩
    obtain rfl := List.mem_singleton.mp hspan
    exact ⟨(e.beside_of_mem_visibleCode hx).1, (e.beside_of_mem_visibleCode hy).1⟩

/-- Classes move on with their members, and so do their bodies. -/
theorem readClasses_move (path : String) (nested : Bool) {names : List FoundName}
    {bodies : List Span}
    (hnames : ∀ n ∈ names, e.ClassName n)
    (hmembers : ∀ n ∈ names, ∀ start stop, e.before.bodyFrom n.stop 0 = .closed start stop →
      List.Forall₂ e.Moved (members n start stop)
        (members' (n.map e.move) (e.move start) (e.move stop)))
    (hbodies : ∀ span ∈ bodies, e.Beside span.start ∧ e.Beside span.stop) :
    List.Forall₂ e.Moved (readClasses e.before path nested members bodies names).symbols
        (readClasses e.after path nested members' (bodies.map (Span.map e.move))
          (names.map (FoundName.map e.move))).symbols ∧
      (readClasses e.after path nested members' (bodies.map (Span.map e.move))
          (names.map (FoundName.map e.move))).bodies =
        (readClasses e.before path nested members bodies names).bodies.map (Span.map e.move) ∧
      ∀ span ∈ (readClasses e.before path nested members bodies names).bodies,
        e.Beside span.start ∧ e.Beside span.stop := by
  induction names generalizing bodies with
  | nil => exact ⟨.nil, rfl, hbodies⟩
  | cons n names ih =>
    obtain ⟨hn, hnames⟩ := List.forall_mem_cons.mp hnames
    obtain ⟨hown, hmembers⟩ := List.forall_mem_cons.mp hmembers
    have hpasses : passesClass e.after nested (bodies.map (Span.map e.move)) (n.map e.move) =
        passesClass e.before nested bodies n := by
      show (e.after.inComment (e.move n.start) ||
        (!nested && (bodies.map (Span.map e.move)).any (·.strictlyCovers (e.move n.start)))) = _
      rw [e.inComment_move hn.beside.start, any_strictlyCovers_move hn.beside.start hbodies]
      rfl
    have hbody : e.after.bodyFrom (n.map e.move).stop 0 =
        (e.before.bodyFrom n.stop 0).map e.move := bodyFrom_move hn.beside.stop hn.outside 0
    rw [List.map_cons]
    cases hpass : passesClass e.before nested bodies n with
    | true =>
      rw [readClasses_of_passes hpass, readClasses_of_passes (hpasses.trans hpass)]
      exact ih hnames hmembers hbodies
    | false =>
      obtain ⟨hsymbols, hspans⟩ := readClasses_cons path members names hpass
      obtain ⟨hsymbols', hspans'⟩ := readClasses_cons path members'
        (names.map (FoundName.map e.move)) (hpasses.trans hpass)
      obtain ⟨hmoved, hbeside⟩ := spans_move hn.outside
      rw [hbody, hmoved, ← List.map_append] at hsymbols' hspans'
      have hall : ∀ span ∈ bodies ++ (e.before.bodyFrom n.stop 0).spans e.before.length,
          e.Beside span.start ∧ e.Beside span.stop := fun span hspan =>
        (List.mem_append.mp hspan).elim (hbodies span) (hbeside span)
      obtain ⟨hlater, hbodies', hbesides⟩ := ih hnames hmembers hall
      rw [hsymbols, hsymbols', hspans, hspans']
      refine ⟨.cons (moved_symbolAt path .type hn.beside.start hn.boundary _ _)
        (List.rel_append ?_ hlater), hbodies', hbesides⟩
      cases hclosed : e.before.bodyFrom n.stop 0 with
      | missing => exact .nil
      | unclosed start => exact .nil
      | closed start stop => exact hown start stop hclosed

end Classes

section Bodies

variable {o a b d start start' : Nat}

/-- The stretch between two braces of the code. -/
structure Interior (e : Change rules) (a b : Nat) : Prop where
  beside : e.Beside (a + 1)
  move_eq : e.move (a + 1) = e.move a + 1
  outside : e.before.OutsideLiteral (a + 1)
  boundary : onBoundary (a + 1) e.before.chars = true
  beside_stop : e.Beside b
  boundary_stop : onBoundary b e.before.chars = true
  le : a + 1 ≤ b

theorem interior_of_bodyFrom (h : e.before.OutsideLiteral o) {parens : Nat}
    (hbody : e.before.bodyFrom o parens = .closed a b) : e.Interior a b := by
  rw [bodyFrom_eq h] at hbody
  rcases bodyIn_cases e.before.visibleCode o parens with hcase | ⟨x, hx, hcase⟩ |
    ⟨x, hx, y, hy, hopen, hclose, hle, hcase⟩
  · rw [hcase] at hbody
    cases hbody
  · rw [hcase] at hbody
    cases hbody
  · obtain ⟨rfl, rfl⟩ := Body.closed.inj (hcase.symm.trans hbody)
    obtain ⟨pre, post, hchars, hpre, -, houtside⟩ := exists_of_mem_visibleCode hx
    obtain ⟨pre', post', hchars', hpre', -, -⟩ := exists_of_mem_visibleCode hy
    obtain ⟨-, hbeside, hmove⟩ := e.beside_of_mem_visibleCode hx
    have hsize : x.char.utf8Size = 1 := by rw [hopen]; rfl
    rw [hsize] at houtside
    refine ⟨hbeside, hmove, houtside, ?_, (e.beside_of_mem_visibleCode hy).1, ?_, ?_⟩
    · refine onBoundary_iff.mpr ⟨pre ++ [x.char], post, by rw [hchars, List.append_assoc]; rfl, ?_⟩
      rw [byteLength_append, byteLength_cons, byteLength_nil, hsize, hpre]
    · exact onBoundary_iff.mpr ⟨pre', _, hchars', hpre'⟩
    · -- the two braces are not the same character
      rcases Nat.lt_or_eq_of_le hle with hlt | heq
      · exact hlt
      · have hsame : x.char :: post = y.char :: post' := by
          rw [← dropBytes_byteLength pre (x.char :: post), ← hchars, hpre, heq, ← hpre', hchars',
            dropBytes_byteLength]
        rw [hopen, hclose] at hsame
        cases (List.cons.inj hsame).1

section Names

variable {p body : Pattern} {front back : List Pattern} {f : Char → Bool}

/-- Outside comments the names between two braces move on. -/
theorem namesOutside_body (hp : p.Names front body back f) (h : e.Interior a b)
    (hdivides : e.Divides p (a + 1) b) (hdivides' : e.swap.Divides p (e.move a + 1) (e.move b)) :
    (∀ n ∈ e.before.namesOutside p (a + 1) b, e.NameBeside n) ∧
      e.after.namesOutside p (e.move a + 1) (e.move b) =
        (e.before.namesOutside p (a + 1) b).map (FoundName.map e.move) := by
  rw [← h.move_eq] at hdivides' ⊢
  exact e.namesOutside_move hp h.beside.starts h.boundary h.boundary_stop h.le h.beside_stop hdivides
    hdivides'

end Names

/-- What lies outside all braces still does. -/
theorem filter_depth_move {α : Type} {offset : α → Nat} {g : α → α}
    (hg : ∀ x, offset (g x) = e.move (offset x)) (hstarts : e.Starts start start')
    (h : e.before.OutsideLiteral start) (h' : e.after.OutsideLiteral start') {xs : List α}
    (hxs : ∀ x ∈ xs, e.Beside (offset x)) :
    (xs.map g).filter
        (fun x => ((e.after.depthTracker start').advanceTo (offset x)).depth = 0) =
      (xs.filter fun x => ((e.before.depthTracker start).advanceTo (offset x)).depth = 0).map g := by
  rw [List.filter_map]
  refine congrArg _ (List.filter_congr fun x hx => ?_)
  show decide (((e.after.depthTracker start').advanceTo (offset (g x))).depth = 0) = _
  rw [hg, depth_move hstarts h h' (hxs x hx)]

/-- The end of a declaration moves on with its block. -/
theorem declarationEnd_move (ho : e.Beside o) (h : e.before.OutsideLiteral o) (hd : e.Beside d)
    (parens : Nat) :
    e.Beside ((e.before.bodyFrom o parens).declarationEnd d) ∧
      (e.after.bodyFrom (e.move o) parens).declarationEnd (e.move d) =
        e.move ((e.before.bodyFrom o parens).declarationEnd d) := by
  rw [bodyFrom_move ho h, bodyFrom_eq h]
  rcases bodyIn_cases e.before.visibleCode o parens with hcase | ⟨x, hx, hcase⟩ |
    ⟨x, hx, y, hy, -, -, -, hcase⟩
  · rw [hcase]
    exact ⟨hd, rfl⟩
  · rw [hcase]
    exact ⟨hd, rfl⟩
  · rw [hcase]
    obtain ⟨-, hbeside, hmove⟩ := e.beside_of_mem_visibleCode hy
    exact ⟨hbeside, hmove.symm⟩

end Bodies

section Kept

variable {names : List FoundName} {path : String}

/-- Names outside the bodies of classes stay outside. -/
theorem freeNames_move {p body : Pattern} {front back : List Pattern} {f : Char → Bool}
    (hp : p.Names front body back f) (hdivides : e.Divides p 0 e.before.length)
    (hdivides' : e.swap.Divides p 0 e.after.length) {bodies : List Span}
    (hbodies : ∀ span ∈ bodies, e.Beside span.start ∧ e.Beside span.stop) :
    (∀ n ∈ e.before.freeNames p bodies, n ∈ e.before.namesOutside p 0 e.before.length ∧
        e.NameBeside n ∧ onBoundary n.start e.before.chars = true) ∧
      e.after.freeNames p (bodies.map (Span.map e.move)) =
        (e.before.freeNames p bodies).map (FoundName.map e.move) := by
  obtain ⟨hbeside, hnames⟩ := e.namesOutside_whole hp hdivides hdivides'
  refine ⟨fun n hn => ?_, ?_⟩
  · have hn := List.mem_of_mem_filter hn
    exact ⟨hn, hbeside n hn, onBoundary_of_mem_namesOutside hp.finds (onBoundary_zero _) hn⟩
  · rw [SourceText.freeNames, hnames, List.filter_map]
    refine congrArg _ (List.filter_congr fun n hn => congrArg (!·) ?_)
    exact any_strictlyCovers_move (hbeside n hn).start hbodies

/-- Functions within no other stay so. -/
theorem outermostFunctions_move {found : List FoundFunction}
    (h : ∀ g ∈ found, e.Beside g.name.start ∧ e.Beside g.stop) :
    outermostFunctions (found.map (FoundFunction.map e.move)) =
      (outermostFunctions found).map (FoundFunction.map e.move) := by
  rw [outermostFunctions, List.filter_map, outermostFunctions]
  refine congrArg _ (List.filter_congr fun g hg => congrArg (!·) (any_map_congr fun g' hg' => ?_))
  obtain ⟨hstart, -⟩ := h g hg
  obtain ⟨hstart', hstop'⟩ := h g' hg'
  show (decide (e.move g'.name.start < e.move g.name.start) &&
    decide (e.move g.name.start < e.move g'.stop)) = _
  rw [decide_eq_decide.mpr (move_lt_move_iff hstart' hstart),
    decide_eq_decide.mpr (move_lt_move_iff hstart hstop')]

/-- The functions with the names move on with them. -/
theorem foundFunctions_move (hbeside : ∀ n ∈ names, e.NameBeside n)
    (hcode : ∀ n ∈ names, e.before.OutsideLiteral n.matchStop) (parens : Nat) :
    ((names.map (FoundName.map e.move)).map fun n =>
        FoundFunction.mk n ((e.after.bodyFrom n.matchStop parens).declarationEnd n.stop)) =
      (names.map fun n => FoundFunction.mk n
        ((e.before.bodyFrom n.matchStop parens).declarationEnd n.stop)).map
          (FoundFunction.map e.move) ∧
      ∀ g ∈ names.map (fun n => FoundFunction.mk n
          ((e.before.bodyFrom n.matchStop parens).declarationEnd n.stop)),
        e.Beside g.name.start ∧ e.Beside g.stop := by
  have hend := fun n hn => declarationEnd_move (hbeside n hn).matchStop (hcode n hn)
    (hbeside n hn).stop parens
  constructor
  · rw [List.map_map, List.map_map]
    refine List.map_congr_left fun n hn => ?_
    show FoundFunction.mk (n.map e.move) ((e.after.bodyFrom (e.move n.matchStop)
      parens).declarationEnd (e.move n.stop)) = _
    rw [(hend n hn).2]
    rfl
  · intro g hg
    obtain ⟨n, hn, rfl⟩ := List.mem_map.mp hg
    exact ⟨(hbeside n hn).start, (hend n hn).1⟩

/-- The outermost of functions that move on. -/
theorem forall₂_outermostFunctions {found : List FoundFunction} (path : String)
    (h : ∀ g ∈ found, e.Beside g.name.start ∧ e.Beside g.stop)
    (hboundary : ∀ g ∈ found, onBoundary g.name.start e.before.chars = true) :
    List.Forall₂ e.Moved
      ((outermostFunctions found).map fun g =>
        e.before.symbolAt path .function g.name.text g.name.start g.stop)
      ((outermostFunctions (found.map (FoundFunction.map e.move))).map fun g =>
        e.after.symbolAt path .function g.name.text g.name.start g.stop) := by
  rw [outermostFunctions_move h]
  refine forall₂_map fun g hg => ?_
  have hg := mem_of_mem_outermostFunctions hg
  exact moved_symbolAt path .function (h g hg).1 (hboundary g hg) _ _

/-- Events move on. -/
theorem readEvents_move {p body : Pattern} {front back : List Pattern} {f : Char → Bool}
    (hp : p.Names front body back f) (path : String)
    (hdivides : e.Divides p 0 e.before.length) (hdivides' : e.swap.Divides p 0 e.after.length) :
    List.Forall₂ e.Moved (readEvents e.before path (e.before.names p))
      (readEvents e.after path (e.after.names p)) := by
  obtain ⟨hbeside, hnames⟩ := e.namesOutside_whole hp hdivides hdivides'
  show List.Forall₂ e.Moved
    ((firstPerKey FoundName.text [] (e.before.namesOutside p 0 e.before.length)).map _)
    ((firstPerKey FoundName.text [] (e.after.namesOutside p 0 e.after.length)).map _)
  rw [hnames, firstPerKey_map (f := FoundName.map e.move) fun _ => rfl]
  refine forall₂_map fun n hn => ?_
  have hn := mem_of_mem_firstPerKey _ hn
  exact moved_of_beside (hbeside n hn).start
    (onBoundary_of_mem_namesOutside hp.finds (onBoundary_zero _) hn) rfl rfl
    ((outline_define ..).trans (outline_define ..).symm)

/-- The classes of a text move on, if their members do. -/
theorem classes_move {p body : Pattern} {front back : List Pattern} {f : Char → Bool}
    (hp : p.Names front body back f) (path : String) (nested : Bool)
    (members : SourceText → FoundName → Nat → Nat → List Symbol)
    (hdivides : e.Divides p 0 e.before.length) (hdivides' : e.swap.Divides p 0 e.after.length)
    (hcode : ∀ n ∈ e.before.namesOutside p 0 e.before.length, e.before.OutsideLiteral n.stop)
    (hmembers : ∀ n ∈ e.before.namesOutside p 0 e.before.length,
      n.map e.move ∈ e.after.namesOutside p 0 e.after.length → e.ClassName n →
        ∀ start stop, e.before.bodyFrom n.stop 0 = .closed start stop →
          List.Forall₂ e.Moved (members e.before n start stop)
            (members e.after (n.map e.move) (e.move start) (e.move stop))) :
    List.Forall₂ e.Moved
        (readClasses e.before path nested (members e.before) [] (e.before.names p)).symbols
        (readClasses e.after path nested (members e.after) [] (e.after.names p)).symbols ∧
      (readClasses e.after path nested (members e.after) [] (e.after.names p)).bodies =
        (readClasses e.before path nested (members e.before) [] (e.before.names p)).bodies.map
          (Span.map e.move) ∧
      ∀ span ∈ (readClasses e.before path nested (members e.before) [] (e.before.names p)).bodies,
        e.Beside span.start ∧ e.Beside span.stop := by
  obtain ⟨hbeside, hnames⟩ := e.namesOutside_whole hp hdivides hdivides'
  have hclasses : ∀ n ∈ e.before.namesOutside p 0 e.before.length, e.ClassName n := fun n hn =>
    ⟨hbeside n hn, onBoundary_of_mem_namesOutside hp.finds (onBoundary_zero _) hn, hcode n hn⟩
  have hmoved : ∀ n ∈ e.before.namesOutside p 0 e.before.length,
      n.map e.move ∈ e.after.namesOutside p 0 e.after.length := fun n hn =>
    hnames ▸ List.mem_map_of_mem hn
  have hfilter : ∀ s : SourceText, readClasses s path nested (members s) [] (s.names p) =
      readClasses s path nested (members s) [] (s.namesOutside p 0 s.length) :=
    fun s => readClasses_filter nested (members s) [] (s.names p)
  rw [hfilter, hfilter, hnames]
  exact readClasses_move path nested hclasses
    (fun n hn => hmembers n hn (hmoved n hn) (hclasses n hn)) (by simp)

end Kept

end Change

end Concordance
