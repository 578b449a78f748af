import Concordance.Proofs.Definition.RuleHeads

/-!
The definitions of a stylesheet in which lines without code change.

If no head of a block and no name of a declaration reaches over the start or the end of the lines, every
definition moves on with the text and none is lost or added. Main statement:
`Stylesheet.definitions_move`.
-/

namespace Concordance

open Text Pattern

section Parts

variable {lead text : List Char} {part : List Char}

/-- Text pieces with their places moved on. -/
def shiftPieces (n : Nat) (pieces : List (Nat × List Char)) : List (Nat × List Char) :=
  pieces.map fun piece => (piece.1 + n, piece.2)

theorem splitSelectorsFrom_add (n start : Nat) (part : List Char) (depth offset : Nat)
    (text : List Char) :
    splitSelectorsFrom (start + n) part depth (offset + n) text =
      shiftPieces n (splitSelectorsFrom start part depth offset text) := by
  induction text generalizing start part depth offset with
  | nil => rfl
  | cons c text ih =>
    have hnext : offset + n + c.utf8Size = offset + c.utf8Size + n := Nat.add_right_comm _ _ _
    by_cases hc : c = ',' ∧ depth = 0
    · simp only [splitSelectorsFrom, if_pos hc, hnext]
      rw [ih]
      rfl
    · rw [splitSelectorsFrom_cons hc, splitSelectorsFrom_cons hc, hnext, ih]

/-- With more at the front of the first part the other parts stay, moved on. -/
theorem splitSelectorsFrom_part (n : Nat) (lead part : List Char) (depth offset : Nat)
    (text : List Char) :
    ∃ first later, splitSelectorsFrom 0 part depth offset text = (0, first) :: later ∧
      splitSelectorsFrom 0 (part ++ lead.reverse) depth (offset + n) text =
        (0, lead ++ first) :: shiftPieces n later := by
  induction text generalizing part depth offset with
  | nil => exact ⟨part.reverse, [], rfl, by simp [splitSelectorsFrom, shiftPieces]⟩
  | cons c text ih =>
    have hnext : offset + n + c.utf8Size = offset + c.utf8Size + n := Nat.add_right_comm _ _ _
    by_cases hc : c = ',' ∧ depth = 0
    · simp only [splitSelectorsFrom, if_pos hc, hnext]
      exact ⟨part.reverse, _, rfl, by rw [splitSelectorsFrom_add]; simp⟩
    · rw [splitSelectorsFrom_cons hc, splitSelectorsFrom_cons hc, hnext]
      exact ih (c :: part) ..

theorem splitSelectorsFrom_blank (hlead : AllBlank lead) (start : Nat) (part : List Char)
    (depth offset : Nat) (text : List Char) :
    splitSelectorsFrom start part depth offset (lead ++ text) =
      splitSelectorsFrom start (lead.reverse ++ part) depth (offset + byteLength lead) text := by
  induction lead generalizing part offset with
  | nil => rfl
  | cons c lead ih =>
    obtain ⟨hc, hlead⟩ := List.forall_mem_cons.mp hlead
    have hmark : ∀ mark : Char, isBlank mark = false → c ≠ mark := by
      rintro mark hmark rfl
      rw [hc] at hmark
      cases hmark
    have hcomma := hmark ',' (by decide)
    have hopen := hmark '(' (by decide)
    have hopen' := hmark '[' (by decide)
    have hclose := hmark ')' (by decide)
    have hclose' := hmark ']' (by decide)
    have hdepth : bracketStep depth c = depth := by
      simp [bracketStep, hopen, hopen', hclose, hclose']
    rw [List.cons_append, splitSelectorsFrom_cons fun h => hcomma h.1, hdepth, ih hlead,
      byteLength_cons, Nat.add_assoc, List.reverse_cons, List.append_assoc]
    rfl

/-- White space at the front of a selector list goes to its first part. -/
theorem splitSelectors_blank (hlead : AllBlank lead) (text : List Char) :
    ∃ first later, splitSelectors text = (0, first) :: later ∧
      splitSelectors (lead ++ text) =
        (0, lead ++ first) :: shiftPieces (byteLength lead) later := by
  obtain ⟨first, later, htext, hall⟩ := splitSelectorsFrom_part (byteLength lead) lead [] 0 0 text
  refine ⟨first, later, htext, ?_⟩
  rw [splitSelectors, splitSelectorsFrom_blank hlead, ← hall, List.append_nil, List.nil_append]

end Parts

namespace Stylesheet

section Selectors

variable {s : SourceText} {path : String} {start stop close base : Nat} {lead text : List Char}

/-- The selector in the part of a list that starts at the byte. -/
def selector? (s : SourceText) (path : String) (close base : Nat) (piece : Nat × List Char) :
    Option Symbol :=
  let name := collapseBlanks piece.2
  if name.isEmpty || name.contains '&' || (selectorKey? name).isNone then none
  else
    let leading := byteLength piece.2 - byteLength (trimStart piece.2)
    some (s.symbolAt path .selector name (base + piece.1 + leading) (close + 1))

theorem selectorsOf_slice (s : SourceText) (path : String) (start stop close : Nat) :
    selectorsOf s path start stop close =
      (splitSelectors (s.slice start stop)).filterMap (selector? s path close start) :=
  rfl

theorem selector?_blank (hlead : AllBlank lead) (first : List Char) :
    selector? s path close base (0, lead ++ first) =
      selector? s path close (base + byteLength lead) (0, first) := by
  have hlength : byteLength (trimStart first) ≤ byteLength first := by
    have hsplit : first.takeWhile isBlank ++ trimStart first = first :=
      List.takeWhile_append_dropWhile
    have hlength := congrArg byteLength hsplit
    rw [byteLength_append] at hlength
    omega
  have hplace : base + 0 + (byteLength lead + byteLength first - byteLength (trimStart first)) =
      base + byteLength lead + 0 + (byteLength first - byteLength (trimStart first)) := by
    omega
  simp only [selector?, collapseBlanks_append_blank hlead, trimStart_append_blank hlead,
    byteLength_append, hplace]

theorem filterMap_selector?_shift (n : Nat) (pieces : List (Nat × List Char)) :
    (shiftPieces n pieces).filterMap (selector? s path close base) =
      pieces.filterMap (selector? s path close (base + n)) := by
  rw [shiftPieces, List.filterMap_map]
  refine List.filterMap_congr fun piece _ => ?_
  have hplace : base + (piece.1 + n) = base + n + piece.1 := by omega
  simp only [selector?, Function.comp_apply, hplace]

/-- White space at its front is nothing to the selectors of a head. -/
theorem selectorsOf_blank (hlead : AllBlank lead) (h : s.slice start stop = lead ++ text) :
    selectorsOf s path start stop close =
      (splitSelectors text).filterMap (selector? s path close (start + byteLength lead)) := by
  obtain ⟨first, later, htext, hall⟩ := splitSelectors_blank hlead text
  rw [selectorsOf_slice, h, htext, hall, List.filterMap_cons, List.filterMap_cons,
    selector?_blank hlead, filterMap_selector?_shift]

theorem blockKind_blank (hlead : AllBlank lead) (text : List Char) :
    blockKind (lead ++ text) = blockKind text := by
  rw [blockKind, blockKind, trim, trimStart_append_blank hlead]
  rfl

end Selectors

section Move

variable {rules : LexicalRules} {e : Change rules} {path : String}
  {head stop head' stop' close close' : Nat} {text lead lead' : List Char}

/-- The selectors of a head that moves on move on with it. -/
theorem selectorsOf_move (h : e.HeadMoved head stop head' stop' text lead lead') :
    List.Forall₂ e.Moved (selectorsOf e.before path head stop close)
      (selectorsOf e.after path head' stop' close') := by
  rw [selectorsOf_blank h.blank h.slice, selectorsOf_blank h.blank' h.slice']
  refine forall₂_filterMap fun piece hpiece => ?_
  obtain ⟨pre, post, htext, hpre, -⟩ := mem_splitSelectors_iff.mp hpiece
  obtain ⟨offset, part⟩ := piece
  dsimp only at htext hpre
  unfold selector?
  dsimp only
  split
  · exact .none
  · have hsplit : part.takeWhile isBlank ++ trimStart part = part :=
      List.takeWhile_append_dropWhile
    have hlength := congrArg byteLength hsplit
    rw [byteLength_append] at hlength
    have hplace : ∀ base, base + offset + (byteLength part - byteLength (trimStart part)) =
        base + byteLength (pre ++ part.takeWhile isBlank) := by
      intro base
      rw [byteLength_append, hpre]
      omega
    obtain ⟨hboundary, hbeside, hmove⟩ := h.place (pre ++ part.takeWhile isBlank)
      (trimStart part ++ post) (by
        rw [htext, List.append_assoc, List.append_assoc, ← List.append_assoc (part.takeWhile isBlank),
          hsplit])
    rw [hplace, hplace, ← hmove]
    exact .some (Change.moved_of_beside hbeside hboundary rfl rfl
      ((outline_symbolAt ..).trans (outline_symbolAt ..).symm))

end Move

/-- The text before each opening brace, from the brace or the semicolon before it on: the heads of blocks.
Code before `resume` is passed over, and `start` is where the next head starts. -/
def headsFrom (s : SourceText) : Nat → Nat → List CodeChar → List Span
  | _, _, [] => []
  | resume, start, ⟨offset, c⟩ :: rest =>
    if offset < resume then headsFrom s resume start rest
    else if c = '{' then
      if isInterpolation s offset then
        match s.matchingBrace? offset with
        | none => []
        | some close => headsFrom s (close + 1) start rest
      else ⟨start, offset⟩ :: headsFrom s resume (offset + 1) rest
    else if c = '}' then headsFrom s resume (offset + 1) rest
    else if c = ';' then headsFrom s resume (offset + 1) rest
    else headsFrom s resume start rest

/-- The head does not reach over the cut, but for white space and comments at its front. -/
def PartsHead (s : SourceText) (cut : Nat) (head : Span) : Prop :=
  head.start ≤ cut → cut ≤ head.stop → AllBlank (s.slice (headStart s head.start cut) cut)

instance (s : SourceText) (cut : Nat) (head : Span) : Decidable (PartsHead s cut head) :=
  inferInstanceAs (Decidable (_ → _ → AllBlank _))

/-- No head of a block and no name of a declaration reaches over the cut. -/
structure Unbroken (s : SourceText) (cut : Nat) : Prop where
  heads : ∀ head ∈ headsFrom s 0 0 s.visibleCode, PartsHead s cut head
  names : ∀ p ∈ [customProperty, scriptVariable], s.Parted p 0 s.length cut

instance (s : SourceText) (cut : Nat) : Decidable (Unbroken s cut) :=
  decidable_of_iff (_ ∧ _) ⟨fun h => ⟨h.1, h.2⟩, fun h => ⟨h.heads, h.names⟩⟩

section Run

variable {rules : LexicalRules} {e : Change rules} {s : SourceText} {path : String}

theorem selectorsFrom_filter (resume start : Nat) (blocks : List BlockKind) (cs : List CodeChar) :
    selectorsFrom s path resume start blocks (cs.filter fun x => !isBlank x.char) =
      selectorsFrom s path resume start blocks cs := by
  induction cs generalizing resume start blocks with
  | nil => rfl
  | cons x cs ih =>
    obtain ⟨offset, c⟩ := x
    by_cases hblank : isBlank c = true
    · obtain ⟨hopen, hclose, -, -, hend⟩ := not_brace_of_isBlank (x := ⟨offset, c⟩) hblank
      dsimp only at hopen hclose hend
      rw [List.filter_cons_of_neg (by simp [hblank]), ih]
      simp only [selectorsFrom, hopen, hclose, hend, if_false, ite_self]
    · rw [List.filter_cons_of_pos (by simpa using hblank)]
      simp only [selectorsFrom, ih]

theorem isInterpolation_move {x : CodeChar} (h : x ∈ e.before.visibleCode) (hx : x.char ≠ '#') :
    isInterpolation e.after (e.move x.offset) = isInterpolation e.before x.offset := by
  have hmem : x.map e.move ∈ e.after.visibleCode := by
    rw [e.visibleCode_after]
    exact List.mem_map_of_mem h
  have hline := Change.beforeOnLine_move (e.beside_of_mem_visibleCode h).1
    (Change.onBoundary_of_mem_visibleCode h)
  rw [Bool.eq_iff_iff, isInterpolation_iff h hx, ← hline]
  exact isInterpolation_iff hmem hx

/-- A block whose head moves on: its selectors move on, and so do those behind its brace, if they do
whatever the kind of the block is. -/
theorem selectorsFrom_move_head {offset start start' resume resume' : Nat} {blocks : List BlockKind}
    {cs cs' : List CodeChar} {text lead lead' : List Char}
    (hx : ⟨offset, '{'⟩ ∈ e.before.visibleCode) (hmark : isInterpolation e.before offset = false)
    (hresume : resume ≤ offset) (hresume' : resume' ≤ e.move offset)
    (hmoved : e.HeadMoved (headStart e.before start offset) offset
      (headStart e.after start' (e.move offset)) (e.move offset) text lead lead')
    (hbehind : ∀ kind, List.Forall₂ e.Moved
      (selectorsFrom e.before path resume (offset + 1) (kind :: blocks) cs).symbols
      (selectorsFrom e.after path resume' (e.move offset + 1) (kind :: blocks) cs').symbols) :
    List.Forall₂ e.Moved
      (selectorsFrom e.before path resume start blocks (⟨offset, '{'⟩ :: cs)).symbols
      (selectorsFrom e.after path resume' start' blocks (⟨e.move offset, '{'⟩ :: cs')).symbols := by
  have hmark' : isInterpolation e.after (e.move offset) = false :=
    (isInterpolation_move hx (show '{' ≠ '#' by decide)).trans hmark
  have hbrace : e.after.matchingBrace? (e.move offset) =
      (e.before.matchingBrace? offset).map e.move := Change.matchingBrace?_move hx rfl
  simp only [selectorsFrom, Nat.not_lt.mpr hresume, Nat.not_lt.mpr hresume', if_false, if_true, hmark,
    hmark', hbrace, Bool.false_eq_true]
  rw [hmoved.slice, hmoved.slice', blockKind_blank hmoved.blank, blockKind_blank hmoved.blank']
  generalize (if blocks.head? = some BlockKind.other then BlockKind.other
    else blockKind text) = kind
  split
  · cases hclose : e.before.matchingBrace? offset with
    | none => exact .nil
    | some close => exact List.rel_append (selectorsOf_move hmoved) (hbehind kind)
  · exact hbehind kind

/-- The selectors met in the code move on with it, if no head reaches over an end of the lines. -/
theorem selectorsFrom_move {cs : List CodeChar}
    (hcode : ∀ x ∈ cs, x ∈ e.before.visibleCode) (hsorted : cs.Pairwise fun x y => x.offset < y.offset)
    (blocks : List BlockKind) {resume resume' start start' : Nat} (hresume : e.Starts resume resume')
    (hstarts : e.Starts start start') (hstart : onBoundary start e.before.chars = true)
    (habove : ∀ x ∈ cs, start ≤ x.offset)
    (hheads : ∀ head ∈ headsFrom e.before resume start cs, PartsHead e.before e.stop head)
    (hheads' : ∀ head ∈ headsFrom e.after resume' start' (cs.map (CodeChar.map e.move)),
      PartsHead e.after e.swap.stop head) :
    List.Forall₂ e.Moved (selectorsFrom e.before path resume start blocks cs).symbols
      (selectorsFrom e.after path resume' start' blocks (cs.map (CodeChar.map e.move))).symbols := by
  induction cs generalizing blocks resume resume' start start' with
  | nil => exact .nil
  | cons x cs ih =>
    obtain ⟨hx, hcs⟩ := List.forall_mem_cons.mp hcode
    obtain ⟨hlater, hpairs⟩ := List.pairwise_cons.mp hsorted
    obtain ⟨hhead, hle⟩ := List.forall_mem_cons.mp habove
    obtain ⟨hbeside, hnext, hmove⟩ := e.beside_of_mem_visibleCode hx
    have hskip : e.move x.offset < resume' ↔ x.offset < resume := by
      rw [← Nat.not_le, ← Nat.not_le, hresume.le_move_iff hbeside]
    -- the code behind a brace or a semicolon is read as the rest of the text
    have hin := Change.mem_codeFrom_of_mem_visibleCode hx
    have hrest := fun (hsize : x.char.utf8Size = 1) blocks => ih hcs hpairs blocks hresume
      (hmove ▸ hnext.starts) (onBoundary_succ_of_mem_codeFrom hin hsize) hlater
    obtain ⟨offset, c⟩ := x
    have hcons : (CodeChar.mk offset c :: cs).map (CodeChar.map e.move) =
        ⟨e.move offset, c⟩ :: cs.map (CodeChar.map e.move) := rfl
    rw [hcons] at hheads' ⊢
    by_cases hbefore : offset < resume
    · simp only [selectorsFrom, headsFrom, hskip, hbefore, if_true] at hheads hheads' ⊢
      exact ih hcs hpairs blocks hresume hstarts hstart hle hheads hheads'
    by_cases hopen : c = '{'
    · subst hopen
      have hinner : isInterpolation e.after (e.move offset) = isInterpolation e.before offset :=
        isInterpolation_move hx (show '{' ≠ '#' by decide)
      have hbrace : e.after.matchingBrace? (e.move offset) =
          (e.before.matchingBrace? offset).map e.move := Change.matchingBrace?_move hx rfl
      cases hmark : isInterpolation e.before offset with
      | true =>
        simp only [selectorsFrom, headsFrom, hskip, hbefore, if_false, if_true, hinner, hbrace, hmark]
          at hheads hheads' ⊢
        cases hclose : e.before.matchingBrace? offset with
        | none => exact .nil
        | some close =>
          obtain ⟨y, hy, rfl⟩ := Change.mem_visibleCode_of_matchingBrace? hx rfl hclose
          obtain ⟨-, hend, hmoved⟩ := e.beside_of_mem_visibleCode hy
          simp only [hclose, Option.map_some] at hheads hheads' ⊢
          exact ih hcs hpairs blocks (hmoved ▸ hend.starts) hstarts hstart hle hheads hheads'
      | false =>
        simp only [headsFrom, hskip, hbefore, if_false, if_true, hinner, hmark, Bool.false_eq_true]
          at hheads hheads'
        obtain ⟨hfirst, hheads⟩ := List.forall_mem_cons.mp hheads
        obtain ⟨hfirst', hheads'⟩ := List.forall_mem_cons.mp hheads'
        obtain ⟨text, lead, lead', hmoved⟩ :=
          Change.exists_headMoved hstarts hstart hx hhead hfirst hfirst'
        exact selectorsFrom_move_head hx hmark (Nat.not_lt.mp hbefore)
          (Nat.not_lt.mp (mt hskip.mp hbefore)) hmoved
          fun kind => hrest rfl (kind :: blocks) hheads hheads'
    by_cases hclose : c = '}'
    · subst hclose
      simp only [selectorsFrom, headsFrom, hskip, hbefore, if_false, hopen, if_true]
        at hheads hheads' ⊢
      exact hrest rfl blocks.tail hheads hheads'
    by_cases hend : c = ';'
    · subst hend
      simp only [selectorsFrom, headsFrom, hskip, hbefore, if_false, hopen, hclose, if_true]
        at hheads hheads' ⊢
      exact hrest rfl blocks hheads hheads'
    simp only [selectorsFrom, headsFrom, hskip, hbefore, if_false, hopen, hclose, hend]
      at hheads hheads' ⊢
    exact ih hcs hpairs blocks hresume hstarts hstart hle hheads hheads'

theorem startsDeclaration_move {o : Nat} (h : e.Beside o)
    (ho : onBoundary o e.before.chars = true) :
    startsDeclaration e.after (e.move o) = startsDeclaration e.before o := by
  rw [startsDeclaration, startsDeclaration, Change.beforeOnLine_move h ho]

theorem divides {p : Pattern} (h : e.Clear Unbroken) (hp : p ∈ [customProperty, scriptVariable]) :
    e.Divides p 0 e.before.length ∧ e.swap.Divides p 0 e.after.length :=
  ⟨⟨h.start.names p hp, h.stop.names p hp⟩, ⟨h.start_after.names p hp, h.stop_after.names p hp⟩⟩

/-- The properties and variables of a file, apart from those in comments. -/
theorem propertiesAndVariables_eq (s : SourceText) (path : String) :
    propertiesAndVariables s path =
      ((s.namesOutside customProperty 0 s.length).filter (fun n => startsDeclaration s n.start) ++
        (s.namesOutside scriptVariable 0 s.length).filter fun n =>
          ((s.depthTracker 0).advanceTo n.start).depth = 0).map fun n =>
        s.symbolAt path .variable n.text n.start n.stop := by
  have hproperties : (s.names customProperty).filter
      (fun n => !s.inComment n.start && startsDeclaration s n.start) =
        (s.namesOutside customProperty 0 s.length).filter fun n => startsDeclaration s n.start := by
    rw [SourceText.namesOutside, List.filter_filter]
    exact List.filter_congr fun n _ => Bool.and_comm _ _
  rw [propertiesAndVariables, hproperties, SourceText.names,
    filter_outermost_namesIn finds_scriptVariable]

theorem propertiesAndVariables_move (h : e.Clear Unbroken) :
    List.Forall₂ e.Moved (propertiesAndVariables e.before path)
      (propertiesAndVariables e.after path) := by
  obtain ⟨hdivides, hdivides'⟩ := divides (p := customProperty) h (by simp)
  obtain ⟨hproperties, hnames⟩ := e.namesOutside_whole names_customProperty hdivides hdivides'
  obtain ⟨hdivides, hdivides'⟩ := divides (p := scriptVariable) h (by simp)
  obtain ⟨hvariables, hnames'⟩ := e.namesOutside_whole names_scriptVariable hdivides hdivides'
  have hboundary : ∀ n ∈ e.before.namesOutside customProperty 0 e.before.length,
      onBoundary n.start e.before.chars = true := fun n hn =>
    onBoundary_of_mem_namesOutside finds_customProperty (onBoundary_zero _) hn
  have hstarts : ((e.before.namesOutside customProperty 0 e.before.length).map
      (FoundName.map e.move)).filter (fun n => startsDeclaration e.after n.start) =
        ((e.before.namesOutside customProperty 0 e.before.length).filter
          fun n => startsDeclaration e.before n.start).map (FoundName.map e.move) := by
    rw [List.filter_map]
    refine congrArg _ (List.filter_congr fun n hn => ?_)
    exact startsDeclaration_move (hproperties n hn).start (hboundary n hn)
  have houter := Change.filter_depth_move (g := FoundName.map e.move) (fun _ => rfl)
    (Change.starts_zero (e := e)) (outsideLiteral_zero _) (outsideLiteral_zero _)
    fun n hn => (hvariables n hn).start
  rw [propertiesAndVariables_eq, propertiesAndVariables_eq, hnames, hnames', hstarts, houter,
    ← List.map_append]
  refine Change.forall₂_map fun n hn => ?_
  rcases List.mem_append.mp hn with hn | hn
  · have hn := List.mem_of_mem_filter hn
    exact Change.moved_symbolAt path .variable (hproperties n hn).start (hboundary n hn) _ _
  · have hn := List.mem_of_mem_filter hn
    exact Change.moved_symbolAt path .variable (hvariables n hn).start
      (onBoundary_of_mem_namesOutside finds_scriptVariable (onBoundary_zero _) hn) _ _

/-- Every definition moves on with the text. -/
theorem definitions_move (h : e.Clear Unbroken) (path : String) :
    List.Forall₂ e.Moved (definitions e.before path).symbols
      (definitions e.after path).symbols := by
  have hread : ∀ s : SourceText, selectorsFrom s path 0 0 [] (s.codeFrom 0) =
      selectorsFrom s path 0 0 [] s.visibleCode := by
    intro s
    rw [s.codeFrom_zero, SourceText.visibleCode, selectorsFrom_filter]
  have hheads := h.stop_after.heads
  rw [e.visibleCode_after] at hheads
  have hsorted : e.before.visibleCode.Pairwise fun x y => x.offset < y.offset :=
    (pairwise_codeChars rules .code 0 _).sublist List.filter_sublist
  have hselectors : List.Forall₂ e.Moved (selectorsFrom e.before path 0 0 [] e.before.visibleCode).symbols
      (selectorsFrom e.after path 0 0 [] e.after.visibleCode).symbols := by
    rw [e.visibleCode_after]
    exact selectorsFrom_move (fun _ hx => hx) hsorted [] Change.starts_zero
      Change.starts_zero (onBoundary_zero _) (fun _ _ => Nat.zero_le _) h.stop.heads hheads
  have hall : List.Forall₂ e.Moved
      ((selectorsFrom e.before path 0 0 [] (e.before.codeFrom 0)).symbols ++
        propertiesAndVariables e.before path)
      ((selectorsFrom e.after path 0 0 [] (e.after.codeFrom 0)).symbols ++
        propertiesAndVariables e.after path) := by
    rw [hread, hread]
    exact List.rel_append hselectors (propertiesAndVariables_move h)
  exact Change.forall₂_inReadingOrder (forall₂_firstPerKey hall (fun _ _ hab => hab.name) [])

end Run

end Stylesheet

end Concordance
