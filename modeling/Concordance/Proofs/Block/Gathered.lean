import Concordance.Proofs.Block.Edit
import Concordance.Proofs.Block.Parts

/-!
What the comments above a definition say, and how one block says it again.

A comment is cut into lines and diagrams. The lines before the first tag are its description, those
from there on are tags and entries. The block that takes the place of some comments holds all of this,
in the order in which it stood, and the first diagram. Main statement: `updateBlock_gathers`.
-/

namespace Concordance

open Text

namespace BlockParts

section Pieces

/-- The text opens a diagram. -/
def OpensDiagram (t : List Char) : Prop :=
  fenceOpen <+: trimStart t

instance : DecidablePred OpensDiagram := fun t =>
  inferInstanceAs (Decidable (fenceOpen <+: trimStart t))

/-- The text closes a diagram. -/
def ClosesDiagram (t : List Char) : Prop :=
  trim t = fenceClose

instance : DecidablePred ClosesDiagram := fun t =>
  inferInstanceAs (Decidable (trim t = fenceClose))

/-- The text writes an entry. -/
def WritesEntry (t : List Char) : Prop :=
  Entry.tag <+: trimStart t

instance : DecidablePred WritesEntry := fun t =>
  inferInstanceAs (Decidable (Entry.tag <+: trimStart t))

/-- A piece of a comment: a line, or a diagram with the lines around it. -/
inductive Piece where
  | line (text : List Char)
  | diagram (opening : List Char) (inside : List (List Char)) (closing : Option (List Char))
deriving Repr, DecidableEq

namespace Piece

/-- The lines that the piece takes. -/
def lines : Piece → List (List Char)
  | line text => [text]
  | diagram opening inside closing => opening :: inside ++ closing.toList

/-- The line, outside diagrams. -/
def line? : Piece → Option (List Char)
  | line text => some text
  | diagram .. => none

/-- The lines inside a diagram. -/
def inside? : Piece → Option (List (List Char))
  | line _ => none
  | diagram _ inside _ => some inside

end Piece

/-- The pieces of a comment. A diagram ends with the line that closes it, or with the comment. -/
def pieces : List (List Char) → List Piece
  | [] => []
  | t :: rest =>
    if OpensDiagram t then
      let below := rest.dropWhile fun u => !decide (ClosesDiagram u)
      .diagram t (rest.takeWhile fun u => !decide (ClosesDiagram u)) below.head? ::
        pieces below.tail
    else .line t :: pieces rest
termination_by body => body.length
decreasing_by
  · have hle := (List.dropWhile_suffix (l := rest) fun u => !decide (ClosesDiagram u)).length_le
    simp only [List.length_tail, List.length_cons]
    omega
  · simp

/-- The lines outside diagrams. -/
def outside (body : List (List Char)) : List (List Char) :=
  (pieces body).filterMap Piece.line?

/-- What stands inside the diagrams. -/
def diagrams (body : List (List Char)) : List (List (List Char)) :=
  (pieces body).filterMap Piece.inside?

variable {t : List Char} {rest : List (List Char)}

theorem pieces_line (h : ¬ OpensDiagram t) : pieces (t :: rest) = .line t :: pieces rest := by
  rw [pieces, if_neg h]

theorem pieces_open (h : OpensDiagram t) (hrest : ∀ u ∈ rest, ¬ ClosesDiagram u) :
    pieces (t :: rest) = [.diagram t rest none] := by
  have hdrop : (rest.dropWhile fun u => !decide (ClosesDiagram u)) = [] := by
    simpa [List.dropWhile_eq_nil_iff] using hrest
  have htake : (rest.takeWhile fun u => !decide (ClosesDiagram u)) = rest := by
    simpa using hrest
  rw [pieces, if_pos h]
  simp only [hdrop, htake, List.head?_nil, List.tail_nil, pieces]

theorem pieces_closed {inside below : List (List Char)} {closing : List Char} (h : OpensDiagram t)
    (hinside : ∀ u ∈ inside, ¬ ClosesDiagram u) (hclosing : ClosesDiagram closing) :
    pieces (t :: (inside ++ closing :: below)) =
      .diagram t inside (some closing) :: pieces below := by
  have hdrop : ((inside ++ closing :: below).dropWhile fun u => !decide (ClosesDiagram u)) =
      closing :: below := by
    rw [List.dropWhile_append_of_pos (by simpa using hinside)]
    exact List.dropWhile_cons_of_neg (by simpa using hclosing)
  have htake : ((inside ++ closing :: below).takeWhile fun u => !decide (ClosesDiagram u)) =
      inside := by
    rw [List.takeWhile_append_of_pos (by simpa using hinside),
      List.takeWhile_cons_of_neg (by simpa using hclosing), List.append_nil]
  rw [pieces, if_pos h]
  simp only [hdrop, htake, List.head?_cons, List.tail_cons]

/-- What is so of a comment without lines, with one line more in front, with one diagram more in front
and with a diagram that is not closed, is so of every comment. -/
theorem pieces_induction {P : List (List Char) → Prop} (hnil : P [])
    (hline : ∀ t rest, ¬ OpensDiagram t → P rest → P (t :: rest))
    (hopen : ∀ t rest, OpensDiagram t → (∀ u ∈ rest, ¬ ClosesDiagram u) → P (t :: rest))
    (hclosed : ∀ t inside closing below, OpensDiagram t → (∀ u ∈ inside, ¬ ClosesDiagram u) →
      ClosesDiagram closing → P below → P (t :: (inside ++ closing :: below)))
    (body : List (List Char)) : P body := by
  induction body using pieces.induct with
  | case1 => exact hnil
  | case2 t rest h below ih =>
    generalize hin : (rest.takeWhile fun u => !decide (ClosesDiagram u)) = inside
    have hinside : ∀ u ∈ inside, ¬ ClosesDiagram u := by
      intro u hu
      rw [← hin] at hu
      simpa using List.all_eq_true.mp List.all_takeWhile u hu
    have hrest : inside ++ below = rest := hin ▸ List.takeWhile_append_dropWhile
    cases hbelow : below with
    | nil =>
      rw [hbelow, List.append_nil] at hrest
      exact hopen t rest h (hrest ▸ hinside)
    | cons closing more =>
      have hclosing : ClosesDiagram closing := by
        have hhead := List.head?_dropWhile_not (fun u => !decide (ClosesDiagram u)) rest
        rw [show rest.dropWhile (fun u => !decide (ClosesDiagram u)) = closing :: more from hbelow]
          at hhead
        simpa using hhead
      rw [hbelow] at hrest ih
      rw [← hrest]
      exact hclosed t inside closing more h hinside hclosing ih
  | case3 t rest h ih => exact hline t rest h ih

theorem outside_line (h : ¬ OpensDiagram t) : outside (t :: rest) = t :: outside rest := by
  simp [outside, pieces_line h, Piece.line?]

theorem outside_open (h : OpensDiagram t) (hrest : ∀ u ∈ rest, ¬ ClosesDiagram u) :
    outside (t :: rest) = [] := by
  simp [outside, pieces_open h hrest, List.filterMap_cons, Piece.line?]

theorem diagrams_line (h : ¬ OpensDiagram t) : diagrams (t :: rest) = diagrams rest := by
  simp [diagrams, pieces_line h, List.filterMap_cons, Piece.inside?]

theorem diagrams_open (h : OpensDiagram t) (hrest : ∀ u ∈ rest, ¬ ClosesDiagram u) :
    diagrams (t :: rest) = [rest] := by
  simp [diagrams, pieces_open h hrest, Piece.inside?]

section Closed

variable {inside below : List (List Char)} {closing : List Char} (h : OpensDiagram t)
  (hinside : ∀ u ∈ inside, ¬ ClosesDiagram u) (hclosing : ClosesDiagram closing)
include h hinside hclosing

theorem outside_closed : outside (t :: (inside ++ closing :: below)) = outside below := by
  simp [outside, pieces_closed h hinside hclosing, List.filterMap_cons, Piece.line?]

theorem diagrams_closed :
    diagrams (t :: (inside ++ closing :: below)) = inside :: diagrams below := by
  simp [diagrams, pieces_closed h hinside hclosing, Piece.inside?]

end Closed

/-- No line is lost between the pieces. -/
theorem flatMap_lines_pieces (body : List (List Char)) :
    (pieces body).flatMap Piece.lines = body := by
  induction body using pieces_induction with
  | hnil => simp [pieces]
  | hline t rest h ih => rw [pieces_line h, List.flatMap_cons, ih]; rfl
  | hopen t rest h hrest => simp [pieces_open h hrest, Piece.lines]
  | hclosed t inside closing below h hinside hclosing ih =>
    rw [pieces_closed h hinside hclosing, List.flatMap_cons, ih]
    simp [Piece.lines]

theorem mem_of_mem_outside {body : List (List Char)} (h : t ∈ outside body) : t ∈ body := by
  obtain ⟨piece, hpiece, ht⟩ := List.mem_filterMap.mp h
  rw [← flatMap_lines_pieces body]
  refine List.mem_flatMap.mpr ⟨piece, hpiece, ?_⟩
  cases piece with
  | line text => simpa [Piece.lines, Piece.line?, eq_comm] using ht
  | diagram opening inside closing => simp [Piece.line?] at ht

end Pieces

section Said

/-- The lines that are not blank. -/
def nonBlank (ls : List (List Char)) : List (List Char) :=
  ls.filter fun t => !decide (AllBlank t)

/-- The lines in front of the first tag; none if tags have started. -/
def proseFrom (inTags : Bool) (ls : List (List Char)) : List (List Char) :=
  if inTags then [] else ls.takeWhile fun t => !decide (StartsTag t)

/-- The lines from the first tag on, or all if tags have started, without entries and blank lines. -/
def tagsFrom (inTags : Bool) (ls : List (List Char)) : List (List Char) :=
  (if inTags then ls else ls.dropWhile fun t => !decide (StartsTag t)).filter fun t =>
    !decide (AllBlank t) && !decide (WritesEntry t)

/-- The entries that the lines write. -/
def entriesIn (ls : List (List Char)) : List (List Char) :=
  Entry.cleaned (ls.filterMap fun t => stripFront? Entry.tag (trimStart t))

/-- The description of a comment, without blank lines. -/
def saidProse (body : List (List Char)) : List (List Char) :=
  nonBlank (proseFrom false (outside body))

/-- The tags of a comment. -/
def saidTags (body : List (List Char)) : List (List Char) :=
  tagsFrom false (outside body)

/-- The entries of a comment. -/
def saidEntries (body : List (List Char)) : List (List Char) :=
  entriesIn (outside body)

variable {t : List Char}

theorem mem_nonBlank {ls : List (List Char)} : t ∈ nonBlank ls ↔ t ∈ ls ∧ ¬ AllBlank t := by
  simp [nonBlank]

theorem nonBlank_append (ls more : List (List Char)) :
    nonBlank (ls ++ more) = nonBlank ls ++ nonBlank more :=
  List.filter_append ls more

theorem WritesEntry.startsTag (h : WritesEntry t) : StartsTag t :=
  (show ['@'] <+: Entry.tag by decide).trans h

theorem StartsTag.not_allBlank (h : StartsTag t) : ¬ AllBlank t := by
  intro hblank
  obtain ⟨rest, hrest⟩ := h
  have hmem : '@' ∈ trimStart t := by simp [← hrest]
  exact absurd (hblank '@' ((List.dropWhile_suffix _).mem hmem)) (by decide)

/-- Description and tags of a comment are its lines outside diagrams, without entries and blank
lines. -/
theorem saidProse_append_saidTags (body : List (List Char)) :
    saidProse body ++ saidTags body =
      (outside body).filter fun t => !decide (AllBlank t) && !decide (WritesEntry t) := by
  have hprose : saidProse body = ((outside body).takeWhile fun t => !decide (StartsTag t)).filter
      fun t => !decide (AllBlank t) && !decide (WritesEntry t) := by
    apply List.filter_congr
    intro t ht
    have hstart : ¬ StartsTag t := by simpa using List.all_eq_true.mp List.all_takeWhile t ht
    have hentry : ¬ WritesEntry t := fun h => hstart h.startsTag
    simp [hentry]
  rw [hprose, saidTags, tagsFrom, if_neg Bool.false_ne_true, ← List.filter_append,
    List.takeWhile_append_dropWhile]

theorem proseFrom_nil (b : Bool) : proseFrom b [] = [] := by
  simp [proseFrom]

theorem tagsFrom_nil (b : Bool) : tagsFrom b [] = [] := by
  simp [tagsFrom]

theorem proseFrom_cons (b : Bool) (t : List Char) (ls : List (List Char)) :
    proseFrom b (t :: ls) = proseFrom b [t] ++ proseFrom (b || decide (StartsTag t)) ls := by
  by_cases ht : StartsTag t <;> cases b <;> simp [proseFrom, ht]

theorem tagsFrom_cons (b : Bool) (t : List Char) (ls : List (List Char)) :
    tagsFrom b (t :: ls) = tagsFrom b [t] ++ tagsFrom (b || decide (StartsTag t)) ls := by
  by_cases ht : StartsTag t <;> cases b <;> simp [tagsFrom, ht, ← List.filter_append]

theorem entriesIn_cons (t : List Char) (ls : List (List Char)) :
    entriesIn (t :: ls) = entriesIn [t] ++ entriesIn ls := by
  rw [entriesIn, entriesIn, entriesIn, ← Entry.cleaned_append, ← List.filterMap_append,
    List.singleton_append]

end Said

section Read

variable {t : List Char} {d : List (List Char)} {b : Bool} {parts : BlockParts}
  {D T E : List (List Char)} {G : Option (List (List Char))}

theorem allBlank_iff_of_trimEnd (ht : trimEnd t = t) : AllBlank t ↔ t = [] := by
  rw [← trimEnd_eq_nil_iff, ht]

namespace Reading

theorem step_writesEntry (h : WritesEntry t) (hopen : ¬ OpensDiagram t) :
    step ⟨⟨D, T, E, G⟩, d, b, none⟩ t = ⟨⟨D, T, E ++ entriesIn [t], G⟩, d, true, none⟩ := by
  obtain ⟨rest, hrest⟩ := h
  have hstrip : stripFront? Entry.tag (trimStart t) = some rest :=
    stripFront?_eq_some_iff.mpr hrest.symm
  simp only [step, not_isPrefixOf hopen, hstrip, Bool.false_eq_true, ↓reduceIte, entriesIn,
    List.filterMap_cons, List.filterMap_nil, Entry.cleaned, List.map_cons, List.map_nil]
  by_cases hempty : trim rest = [] <;> simp [hempty]

/-- What a line outside diagrams adds to a reading. -/
theorem step_line (hopen : ¬ OpensDiagram t) (ht : trimEnd t = t) :
    step ⟨⟨D, T, E, G⟩, d, b, none⟩ t =
      ⟨⟨D, T ++ tagsFrom b [t], E ++ entriesIn [t], G⟩, d ++ proseFrom b [t],
        b || decide (StartsTag t), none⟩ := by
  by_cases hentry : WritesEntry t
  · have hstart := hentry.startsTag
    rw [step_writesEntry hentry hopen]
    simp [tagsFrom, proseFrom, hstart, hentry]
  · have hnone : entriesIn [t] = [] := by
      simp [entriesIn, stripFront?_eq_none_iff.mpr hentry, Entry.cleaned]
    by_cases hstart : StartsTag t
    · have hblank := hstart.not_allBlank
      have hne : t ≠ [] := fun hnil => hblank ((allBlank_iff_of_trimEnd ht).mpr hnil)
      rw [step_tag ⟨hne, hopen, hentry⟩ (Or.inr hstart)]
      simp [tagsFrom, proseFrom, hstart, hentry, hblank, hnone]
    · cases b with
      | false =>
        rw [step_prose ⟨hopen, hstart⟩]
        simp [tagsFrom, proseFrom, hstart, hnone]
      | true =>
        by_cases hne : t = []
        · subst hne
          rw [step_nil]
          simp [tagsFrom, proseFrom, hnone, AllBlank]
        · have hblank : ¬ AllBlank t := fun h => hne ((allBlank_iff_of_trimEnd ht).mp h)
          rw [step_tag ⟨hne, hopen, hentry⟩ (Or.inl rfl)]
          simp [tagsFrom, proseFrom, hentry, hblank, hnone]

theorem step_opens (h : OpensDiagram t) :
    step ⟨parts, d, b, none⟩ t = ⟨parts, d, b, some []⟩ := by
  simp [step, List.isPrefixOf_iff_prefix.mpr h]

theorem step_closes {g : List (List Char)} (h : ClosesDiagram t) :
    step ⟨⟨D, T, E, G⟩, d, b, some g⟩ t = ⟨⟨D, T, E, G.or (some g)⟩, d, b, none⟩ := by
  have h : (trim t == fenceClose) = true := beq_iff_eq.mpr h
  simp [step, h, keepDiagram]

/-- What the lines of a comment add to a reading. -/
theorem foldl_step {body : List (List Char)} (hbody : ∀ t ∈ body, trimEnd t = t) :
    (body.foldl step ⟨⟨D, T, E, G⟩, d, b, none⟩).kept =
        ⟨D, T ++ tagsFrom b (outside body), E ++ entriesIn (outside body),
          G.or (diagrams body).head?⟩ ∧
      (body.foldl step ⟨⟨D, T, E, G⟩, d, b, none⟩).description =
        d ++ proseFrom b (outside body) := by
  -- Each piece leaves a reading that is outside diagrams again, so the rest of the state is general.
  induction body using pieces_induction generalizing T E G d b with
  | hnil =>
    simp [kept, outside, diagrams, pieces, tagsFrom_nil, proseFrom_nil, entriesIn, Entry.cleaned]
  | hline t rest h ih =>
    obtain ⟨ht, hrest⟩ := List.forall_mem_cons.mp hbody
    rw [List.foldl_cons, step_line h ht, outside_line h, diagrams_line h,
      proseFrom_cons b t (outside rest), tagsFrom_cons b t (outside rest),
      entriesIn_cons t (outside rest)]
    simp only [← List.append_assoc]
    exact ih hrest
  | hopen t rest h hrest =>
    rw [List.foldl_cons, step_opens h, foldl_inside hrest, outside_open h hrest,
      diagrams_open h hrest]
    simp [kept, keepDiagram, tagsFrom_nil, proseFrom_nil, entriesIn, Entry.cleaned]
  | hclosed t inside closing below h hinside hclosing ih =>
    have hbelow : ∀ u ∈ below, trimEnd u = u := fun u hu => hbody u (by simp [hu])
    rw [List.foldl_cons, step_opens h, List.foldl_append, foldl_inside hinside, List.nil_append,
      List.foldl_cons, step_closes hclosing, outside_closed h hinside hclosing,
      diagrams_closed h hinside hclosing, List.head?_cons]
    obtain ⟨hkept, hdescription⟩ := ih (T := T) (E := E) (G := G.or (some inside)) (d := d) (b := b)
      hbelow
    refine ⟨hkept.trans ?_, hdescription⟩
    cases G <;> rfl

end Reading

end Read

section Gather

variable {bodies : List (List (List Char))} {body ls : List (List Char)} {parts : BlockParts}

theorem nonBlank_dropWhile_isEmpty (ls : List (List Char)) :
    nonBlank (ls.dropWhile List.isEmpty) = nonBlank ls := by
  have hfront : nonBlank (ls.takeWhile List.isEmpty) = [] := by
    rw [nonBlank, List.filter_eq_nil_iff]
    intro t ht
    obtain rfl : t = [] := by simpa using List.all_eq_true.mp List.all_takeWhile t ht
    simp [AllBlank]
  conv_rhs => rw [← List.takeWhile_append_dropWhile (p := List.isEmpty) (l := ls), nonBlank_append,
    hfront, List.nil_append]

theorem nonBlank_trimEmptyLines (ls : List (List Char)) :
    nonBlank (trimEmptyLines ls) = nonBlank ls := by
  have hreverse : ∀ ls, nonBlank ls.reverse = (nonBlank ls).reverse := fun _ =>
    List.filter_reverse
  rw [trimEmptyLines, hreverse, nonBlank_dropWhile_isEmpty, hreverse, List.reverse_reverse,
    nonBlank_dropWhile_isEmpty]

/-- Trimmed lines without empty ones at their ends are none if they are all blank. -/
theorem trimEmptyLines_eq_nil (hls : ∀ t ∈ ls, trimEnd t = t)
    (hblank : nonBlank (trimEmptyLines ls) = []) : trimEmptyLines ls = [] := by
  by_contra hne
  obtain ⟨t, more, hcons⟩ := List.exists_cons_of_ne_nil hne
  have hfirst : t ≠ [] := head?_trimEmptyLines (by rw [hcons]; rfl)
  have hmem : t ∈ trimEmptyLines ls := by simp [hcons]
  have hall : AllBlank t := by
    by_contra hsome
    have hkept := mem_nonBlank.mpr ⟨hmem, hsome⟩
    simp [hblank] at hkept
  exact hfirst ((allBlank_iff_of_trimEnd (hls t (mem_of_mem_trimEmptyLines hmem))).mp hall)

/-- A description that is added follows the one that is there. -/
theorem addDescription_spec (parts : BlockParts) (ls : List (List Char)) :
    ∃ description, parts.addDescription ls = { parts with description := description } ∧
      nonBlank description = nonBlank parts.description ++ nonBlank ls ∧
      (parts.description = [] → ls = [] → description = []) := by
  have hnil : nonBlank [] = [] := rfl
  unfold addDescription
  split
  · next hls =>
    refine ⟨parts.description, rfl, ?_, fun h _ => h⟩
    rw [List.isEmpty_iff.mp hls, hnil, List.append_nil]
  · next hls =>
    split
    · next hparts =>
      refine ⟨ls, rfl, ?_, fun _ h => h⟩
      rw [List.isEmpty_iff.mp hparts, hnil, List.nil_append]
    · refine ⟨parts.description ++ [[]] ++ ls, rfl, ?_, fun _ h => absurd (List.isEmpty_iff.mpr h) hls⟩
      have hdivider : nonBlank [[]] = [] := by simp [nonBlank, AllBlank]
      rw [nonBlank_append, nonBlank_append, hdivider, List.append_nil]

/-- The parts hold what the comments say. -/
structure Gathers (bodies : List (List (List Char))) (parts : BlockParts) : Prop where
  description : nonBlank parts.description = bodies.flatMap saidProse
  bare : bodies.flatMap saidProse = [] → parts.description = []
  tags : parts.tags = bodies.flatMap saidTags
  entries : parts.entries = bodies.flatMap saidEntries
  diagram : parts.diagram = (bodies.flatMap diagrams).head?

/-- Reading one more comment gathers what it says. -/
theorem Gathers.addBlock (h : Gathers bodies parts) (hbody : ∀ t ∈ body, trimEnd t = t) :
    Gathers (bodies ++ [body]) (parts.addBlock body) := by
  obtain ⟨hkept, hdescription⟩ := Reading.foldl_step (D := parts.description) (T := parts.tags)
    (E := parts.entries) (G := parts.diagram) (d := []) (b := false) hbody
  obtain ⟨description, hadd, hnonBlank, hbare⟩ := addDescription_spec
    ⟨parts.description, parts.tags ++ tagsFrom false (outside body),
      parts.entries ++ entriesIn (outside body), parts.diagram.or (diagrams body).head?⟩
    (trimEmptyLines (proseFrom false (outside body)))
  have hparts : parts.addBlock body = ⟨description, parts.tags ++ tagsFrom false (outside body),
      parts.entries ++ entriesIn (outside body), parts.diagram.or (diagrams body).head?⟩ := by
    rw [BlockParts.addBlock, Reading.finish_eq, hkept, hdescription, List.nil_append, hadd]
  rw [hparts]
  refine ⟨?_, ?_, ?_, ?_, ?_⟩
  -- Trimming takes empty lines only, so it hides nothing that the comment says.
  · rw [hnonBlank, nonBlank_trimEmptyLines, h.description, List.flatMap_append, List.flatMap_singleton]
    rfl
  · intro hnone
    rw [List.flatMap_append, List.flatMap_singleton, List.append_eq_nil_iff] at hnone
    refine hbare (h.bare hnone.1) (trimEmptyLines_eq_nil ?_ ?_)
    · intro t ht
      exact hbody t (mem_of_mem_outside ((List.takeWhile_prefix _).mem ht))
    · rw [nonBlank_trimEmptyLines]
      exact hnone.2
  · rw [h.tags, List.flatMap_append, List.flatMap_singleton]
    rfl
  · rw [h.entries, List.flatMap_append, List.flatMap_singleton]
    rfl
  · rw [h.diagram, List.flatMap_append, List.flatMap_singleton, List.head?_append]

/-- What is read from comments is what they say. -/
theorem gathers_ofBlocks (hbodies : ∀ body ∈ bodies, ∀ t ∈ body, trimEnd t = t) :
    Gathers bodies (ofBlocks bodies) := by
  have hfold : ∀ (read : List (List (List Char))) (parts : BlockParts), Gathers read parts →
      Gathers (read ++ bodies) (bodies.foldl BlockParts.addBlock parts) := by
    induction bodies with
    | nil =>
      intro read parts h
      rwa [List.append_nil]
    | cons body bodies ih =>
      intro read parts h
      obtain ⟨hbody, hbodies⟩ := List.forall_mem_cons.mp hbodies
      rw [List.append_cons]
      exact ih hbodies _ _ (h.addBlock hbody)
  exact hfold [] {} ⟨rfl, fun _ => rfl, rfl, rfl, rfl⟩

variable {symbol : Symbol} {entries : List (List Char)} {options : BlockOptions}

theorem nonBlank_defaultDescription (symbol : Symbol) :
    nonBlank [symbol.defaultDescription] = [symbol.defaultDescription] := by
  obtain ⟨c, rest, hlabel, hc, -⟩ := label_cons symbol.kind
  have hsome : ¬ AllBlank symbol.defaultDescription := by
    intro hblank
    have := hblank c (by simp [Symbol.defaultDescription, hlabel])
    simp [hc] at this
  simp [nonBlank, hsome]

/-- The parts hold what the comments say, brought up to date: every line that is no entry and stands
outside diagrams is kept, the entries are merged with the new ones, and the first diagram is kept
unless a new one is asked for. -/
structure Consolidates (symbol : Symbol) (entries : List (List Char)) (options : BlockOptions)
    (bodies : List (List (List Char))) (parts : BlockParts) : Prop where
  kept : ∀ body ∈ bodies, ∀ t ∈ outside body, ¬ AllBlank t → ¬ WritesEntry t →
    t ∈ parts.description ∨ t ∈ parts.tags
  description : nonBlank parts.description =
    if bodies.flatMap saidProse = [] then [symbol.defaultDescription]
    else bodies.flatMap saidProse
  tags : parts.tags = bodies.flatMap saidTags
  entries : parts.entries =
    Entry.merge options.groupByFile (bodies.flatMap saidEntries ++ entries)
  diagram : parts.diagram =
    if options.includeDiagram then some (symbol.diagramLines options)
    else (bodies.flatMap diagrams).head?

theorem Gathers.updated (h : Gathers bodies parts) :
    Consolidates symbol entries options bodies (parts.updated symbol entries options) := by
  have hdescription : nonBlank (parts.updated symbol entries options).description =
      if bodies.flatMap saidProse = [] then [symbol.defaultDescription]
      else bodies.flatMap saidProse := by
    rw [updated_description]
    by_cases hbare : bodies.flatMap saidProse = []
    · rw [if_pos (List.isEmpty_iff.mpr (h.bare hbare)), if_pos hbare, nonBlank_defaultDescription]
    · have hne : parts.description ≠ [] := by
        intro hnil
        rw [← h.description, hnil] at hbare
        exact hbare rfl
      rw [if_neg (by simpa using hne), if_neg hbare, h.description]
  refine ⟨?_, hdescription, h.tags, ?_, ?_⟩
  · intro body hbody t ht hblank hentry
    have hsaid : t ∈ saidProse body ++ saidTags body := by
      rw [saidProse_append_saidTags]
      simp [ht, hblank, hentry]
    rcases List.mem_append.mp hsaid with hprose | htag
    -- A comment with a description leaves no room for the default one.
    · have hmem : t ∈ bodies.flatMap saidProse := List.mem_flatMap.mpr ⟨body, hbody, hprose⟩
      rw [if_neg (List.ne_nil_of_mem hmem)] at hdescription
      exact Or.inl (mem_nonBlank.mp (hdescription ▸ hmem)).1
    · right
      rw [show (parts.updated symbol entries options).tags = parts.tags from rfl, h.tags]
      exact List.mem_flatMap.mpr ⟨body, hbody, htag⟩
  · rw [updated_entries, h.entries]
  · rw [updated_diagram, h.diagram]

end Gather

end BlockParts

theorem CommentBlock.trimEnd_of_mem_body {hash : Bool} {b : CommentBlock} {t : List Char}
    (h : t ∈ b.body hash) : trimEnd t = t := by
  obtain ⟨line, -, rfl⟩ := List.mem_map.mp h
  have hcut : ∀ body? : Option (List Char),
      trimEnd ((body?.map fun body => trimEnd ((stripFront? [' '] body).getD body)).getD []) =
        (body?.map fun body => trimEnd ((stripFront? [' '] body).getD body)).getD [] := by
    intro body?
    cases body? with
    | none => rfl
    | some body => exact trimEnd_trimEnd _
  split
  · exact hcut _
  · exact trimEnd_trimEnd _

/-- Where comments are found above the definition, an update puts a block in their place that says
what they say. -/
theorem updateBlock_gathers {text : List Char} {symbol : Symbol} {d : Nat}
    {blocks : List CommentBlock} (entries : List (List Char)) (style : CommentStyle)
    (options : BlockOptions) (hdef : definitionLine? (linesWithEnds text) symbol = some d)
    (hfound : blocksAbove (hasHashComments symbol.filePath) (linesWithEnds text) d =
      .found blocks) :
    ∃ (start : Nat) (parts : BlockParts),
      (updateBlock text symbol entries style options).text =
        spliceBlock (linesWithEnds text) start d
          (parts.render style (indentOf ((linesWithEnds text)[d]?.getD [])) (lineEndOf text)) ∧
      start ≤ d ∧
      ((linesWithEnds text).take d).drop start = blocks.flatMap CommentBlock.lines ∧
      BlockParts.Consolidates symbol entries options
        (blocks.map (·.body (hasHashComments symbol.filePath))) parts := by
  have hlt := (definitionLine?_eq_some_iff.mp hdef).1.1
  obtain ⟨start, hlow, hstart, -, hlines, -⟩ := blocksAbove_found hfound (Nat.le_of_lt hlt)
  have hbodies : ∀ body ∈ blocks.map (·.body (hasHashComments symbol.filePath)),
      ∀ t ∈ body, trimEnd t = t := by
    intro body hbody t ht
    obtain ⟨b, -, rfl⟩ := List.mem_map.mp hbody
    exact CommentBlock.trimEnd_of_mem_body ht
  refine ⟨start, _, ?_, Nat.le_of_lt hlow, hlines, (BlockParts.gathers_ofBlocks hbodies).updated⟩
  simp only [updateBlock_text_in, blockEdit?, hdef, hfound, hstart]
  rfl

/-- A function below a line comment of each kind and a comment with a tag, a diagram and an entry. -/
def commentedGreeting : List Char :=
  ["# Says hello.\n", "/* Politely.\n", " * @since 1\n", " * ```mermaid\n", " * graph TD\n",
    " * ```\n", " *   or 2\n", " * @usedby b.php:1\n", " */\n", "// At once.\n",
    "function hello() {}\n"].flatMap String.toList

/-- The function, as it is recorded. -/
def greeting : Symbol where
  id := ""
  name := "hello"
  kind := .function
  filePath := "a.php"
  position := ⟨10, 9⟩
  range := ⟨⟨10, 9⟩, ⟨10, 19⟩⟩
  usages := []

theorem updateBlock_gathers_commentedGreeting :
    definitionLine? (linesWithEnds commentedGreeting) greeting = some 10 ∧
      (updateBlock commentedGreeting greeting ["b.php:1,4 (call)".toList] .starred {}).text =
        ["/**\n", " * Says hello.\n", " *\n", " * Politely.\n", " *\n", " * At once.\n", " *\n",
          " * @since 1\n", " *   or 2\n", " * @usedby b.php:1,4 (call)\n", " *\n",
          " * ```mermaid\n", " * graph TD\n", " * ```\n", " */\n",
          "function hello() {}\n"].flatMap String.toList ∧
      ∃ (start : Nat) (parts : BlockParts),
        (updateBlock commentedGreeting greeting ["b.php:1,4 (call)".toList] .starred {}).text =
          spliceBlock (linesWithEnds commentedGreeting) start 10
            (parts.render .starred (indentOf ((linesWithEnds commentedGreeting)[10]?.getD []))
              (lineEndOf commentedGreeting)) ∧
        start ≤ 10 ∧
        ((linesWithEnds commentedGreeting).take 10).drop start =
          (linesWithEnds commentedGreeting).take 10 ∧
        BlockParts.Consolidates greeting ["b.php:1,4 (call)".toList] {}
          [["Says hello.".toList],
            ["Politely.".toList, "@since 1".toList, "```mermaid".toList, "graph TD".toList,
              "```".toList, "  or 2".toList, "@usedby b.php:1".toList, []],
            ["At once.".toList]] parts := by
  generalize hblocks : [CommentBlock.mk ((linesWithEnds commentedGreeting).take 1) true,
    ⟨((linesWithEnds commentedGreeting).drop 1).take 8, false⟩,
    ⟨((linesWithEnds commentedGreeting).drop 9).take 1, true⟩] = blocks
  have hdef : definitionLine? (linesWithEnds commentedGreeting) greeting = some 10 := by
    decide +kernel
  have hfound : blocksAbove (hasHashComments greeting.filePath) (linesWithEnds commentedGreeting) 10 =
      .found blocks := by
    rw [← hblocks]
    decide +kernel
  have hspan : blocks.flatMap CommentBlock.lines = (linesWithEnds commentedGreeting).take 10 := by
    rw [← hblocks]
    decide +kernel
  have hbodies : blocks.map (·.body (hasHashComments greeting.filePath)) =
      [["Says hello.".toList],
        ["Politely.".toList, "@since 1".toList, "```mermaid".toList, "graph TD".toList,
          "```".toList, "  or 2".toList, "@usedby b.php:1".toList, []],
        ["At once.".toList]] := by
    rw [← hblocks]
    decide +kernel
  have hgathers := updateBlock_gathers ["b.php:1,4 (call)".toList] .starred {} hdef hfound
  rw [hspan, hbodies] at hgathers
  exact ⟨hdef, by decide +kernel, hgathers⟩

end Concordance
