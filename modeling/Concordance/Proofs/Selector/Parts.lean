import Concordance.Proofs.Text.Trim
import Concordance.Selector
import Mathlib.Data.List.Basic

/-!
The parts of a selector list.

The list is cut at the commas outside brackets. Brackets are counted through the whole list, and one that
closes none counts for nothing. No bracket is open at a cut, so each part is read as if it stood alone
(`partsFrom_splitSelectors`). Main statements: `mem_splitSelectors_iff` and `splitSelectors_exact`.
-/

namespace Concordance

open Text

section Brackets

/-- The number of open brackets behind a character with `depth` of them open before it. -/
def bracketStep (depth : Nat) (c : Char) : Nat :=
  if c = '(' ∨ c = '[' then depth + 1 else if c = ')' ∨ c = ']' then depth - 1 else depth

/-- The number of brackets that the text leaves open. One that closes none counts for nothing. -/
def openBrackets (text : List Char) : Nat :=
  text.foldl bracketStep 0

theorem openBrackets_concat (text : List Char) (c : Char) :
    openBrackets (text ++ [c]) = bracketStep (openBrackets text) c :=
  List.foldl_concat ..

theorem openBrackets_comma (text : List Char) : openBrackets (text ++ [',']) = openBrackets text :=
  openBrackets_concat text ','

/-- Behind a text that leaves no bracket open the count starts anew. -/
theorem openBrackets_append {front : List Char} (h : openBrackets front = 0) (back : List Char) :
    openBrackets (front ++ back) = openBrackets back := by
  rw [openBrackets, List.foldl_append, ← openBrackets, h, openBrackets]

theorem openBrackets_blank {blanks : List Char} (h : AllBlank blanks) : openBrackets blanks = 0 := by
  induction blanks with
  | nil => rfl
  | cons c blanks ih =>
    obtain ⟨hc, hblanks⟩ := List.forall_mem_cons.mp h
    have hsingle : openBrackets [c] = 0 := by
      show bracketStep 0 c = 0
      unfold bracketStep
      split
      · next hopen => rcases hopen with rfl | rfl <;> cases hc
      · exact ite_self 0
    rw [← List.singleton_append, openBrackets_append hsingle, ih hblanks]

end Brackets

section Parts

variable {start : Nat} {text front back part : List Char} {parts : List (Nat × List Char)}

/-- No comma of the text stands outside brackets. -/
def Uncut (text : List Char) : Prop :=
  ∀ front back, text = front ++ ',' :: back → openBrackets front ≠ 0

theorem uncut_nil : Uncut [] := by
  intro front back h
  simp at h

theorem Uncut.concat (h : Uncut text) {c : Char} (hc : ¬ (c = ',' ∧ openBrackets text = 0)) :
    Uncut (text ++ [c]) := by
  intro front back hsplit
  rcases List.eq_nil_or_concat back with rfl | ⟨back, d, rfl⟩
  · obtain ⟨rfl, hcomma⟩ := List.append_inj' hsplit rfl
    obtain rfl := List.head_eq_of_cons_eq hcomma
    exact fun hopen => hc ⟨rfl, hopen⟩
  · rw [List.concat_eq_append, ← List.cons_append, ← List.append_assoc] at hsplit
    exact h front back (List.append_inj' hsplit rfl).1

/-- White space in front of a text cuts nothing. -/
theorem uncut_blank_append_iff {blanks : List Char} (h : AllBlank blanks) :
    Uncut (blanks ++ text) ↔ Uncut text := by
  constructor
  · rintro huncut front back rfl
    have hopen := huncut (blanks ++ front) back (List.append_assoc ..).symm
    rwa [openBrackets_append (openBrackets_blank h)] at hopen
  · intro huncut front back hsplit
    rcases List.append_eq_append_iff.mp hsplit with ⟨inner, rfl, hinner⟩ | ⟨cut, rfl, hcut⟩
    · rw [openBrackets_append (openBrackets_blank h)]
      exact huncut inner back hinner
    · cases cut with
      | nil =>
        rw [openBrackets_blank fun c hc => h c (List.mem_append_left _ hc)]
        exact absurd rfl (huncut [] back (by simpa using hcut.symm))
      | cons c cut =>
        obtain ⟨rfl, -⟩ := List.cons.inj hcut
        exact absurd (h ',' (by simp)) (by decide)

/-- The text before the first comma outside brackets ends at one place only. -/
theorem Uncut.append_inj {front' back' : List Char} (h : Uncut front) (h' : Uncut front')
    (hclosed : openBrackets front = 0) (hclosed' : openBrackets front' = 0)
    (heq : front ++ ',' :: back = front' ++ ',' :: back') : front = front' ∧ back = back' := by
  rcases List.append_eq_append_iff.mp heq with ⟨inner, rfl, hinner⟩ | ⟨inner, rfl, hinner⟩
  · cases inner with
    | nil => exact ⟨(List.append_nil front).symm, (List.cons.inj hinner).2⟩
    | cons c inner =>
      obtain ⟨rfl, -⟩ := List.cons.inj hinner
      exact absurd hclosed (h' front inner rfl)
  · cases inner with
    | nil => exact ⟨List.append_nil front', (List.cons.inj hinner).2.symm⟩
    | cons c inner =>
      obtain ⟨rfl, -⟩ := List.cons.inj hinner
      exact absurd hclosed' (h front' inner rfl)

/-- The text is empty, or it ends with a comma at which a list is cut. -/
def EndsAtCut (text : List Char) : Prop :=
  text = [] ∨ text.getLast? = some ',' ∧ openBrackets text = 0

/-- The part stands in a list between two cuts, or between a cut and an end of the list. -/
structure IsPart (front part back : List Char) : Prop where
  uncut : Uncut part
  opening : EndsAtCut front
  closing : back = [] ∨ back.head? = some ',' ∧ openBrackets part = 0

/-- The parts of a text that starts at the byte `start`, between the commas outside brackets. -/
inductive PartsFrom : Nat → List Char → List (Nat × List Char) → Prop where
  | last {start : Nat} {text : List Char} (h : Uncut text) : PartsFrom start text [(start, text)]
  | cut {start : Nat} {front back : List Char} {parts : List (Nat × List Char)} (hfront : Uncut front)
      (hclosed : openBrackets front = 0)
      (hback : PartsFrom (start + byteLength front + 1) back parts) :
      PartsFrom start (front ++ ',' :: back) ((start, front) :: parts)

theorem splitSelectorsFrom_comma (start : Nat) (part : List Char) (offset : Nat) (cs : List Char) :
    splitSelectorsFrom start part 0 offset (',' :: cs) =
      (start, part.reverse) :: splitSelectorsFrom (offset + 1) [] 0 (offset + 1) cs :=
  rfl

/-- A character that cuts nothing goes to the part. -/
theorem splitSelectorsFrom_cons {depth : Nat} {c : Char} (hc : ¬ (c = ',' ∧ depth = 0))
    (start : Nat) (part : List Char) (offset : Nat) (cs : List Char) :
    splitSelectorsFrom start part depth offset (c :: cs) =
      splitSelectorsFrom start (c :: part) (bracketStep depth c) (offset + c.utf8Size) cs := by
  simp only [splitSelectorsFrom, if_neg hc, bracketStep]
  split
  · rfl
  · split <;> rfl

/-- The part so far is uncut, and its brackets are those that are counted. -/
theorem partsFrom_splitSelectorsFrom (hpart : Uncut part.reverse) {depth offset : Nat}
    (hdepth : openBrackets part.reverse = depth) (hoffset : start + byteLength part.reverse = offset)
    (text : List Char) :
    PartsFrom start (part.reverse ++ text) (splitSelectorsFrom start part depth offset text) := by
  induction text generalizing start part depth offset with
  | nil => simpa [splitSelectorsFrom] using PartsFrom.last hpart
  | cons c cs ih =>
    by_cases hc : c = ',' ∧ depth = 0
    · obtain ⟨rfl, rfl⟩ := hc
      subst hoffset
      -- no bracket is open here, so the next part starts as the list did
      have hnone : Uncut ([] : List Char).reverse := uncut_nil
      rw [splitSelectorsFrom_comma]
      exact .cut hpart hdepth (ih hnone rfl rfl)
    · have hgrow : Uncut (c :: part).reverse := by
        rw [List.reverse_cons]
        exact hpart.concat (by rwa [hdepth])
      have hcount : openBrackets (c :: part).reverse = bracketStep depth c := by
        rw [List.reverse_cons, openBrackets_concat, hdepth]
      have hplace : start + byteLength (c :: part).reverse = offset + c.utf8Size := by
        rw [List.reverse_cons, byteLength_append, ← Nat.add_assoc, hoffset]
        rfl
      rw [splitSelectorsFrom_cons hc, List.append_cons, ← List.reverse_cons]
      exact ih hgrow hcount hplace

theorem partsFrom_splitSelectors (text : List Char) : PartsFrom 0 text (splitSelectors text) :=
  have hnone : Uncut ([] : List Char).reverse := uncut_nil
  partsFrom_splitSelectorsFrom hnone rfl rfl text

namespace PartsFrom

theorem ne_nil (h : PartsFrom start text parts) : parts ≠ [] := by
  cases h <;> simp

/-- A text without a cut is its own part. -/
theorem eq_of_uncut (h : PartsFrom start text parts) (huncut : Uncut text) :
    parts = [(start, text)] := by
  cases h with
  | last => rfl
  | cut hfront hclosed hback => exact absurd hclosed (huncut _ _ rfl)

theorem uncut (h : PartsFrom start text parts) : ∀ piece ∈ parts, Uncut piece.2 := by
  induction h with
  | last h => simpa using h
  | cut hfront hclosed hback ih => exact List.forall_mem_cons.mpr ⟨hfront, ih⟩

/-- The commas between the parts are all that is taken out of the text. -/
theorem join_eq (h : PartsFrom start text parts) :
    [','].intercalate (parts.map Prod.snd) = text := by
  induction h with
  | last h => simp [List.intercalate]
  | cut hfront hclosed hback ih =>
    rw [List.map_cons, List.intercalate_cons_of_ne_nil (by simpa using hback.ne_nil), ih]
    simp

/-- No part but the last leaves a bracket open. -/
theorem openBrackets_eq_zero (h : PartsFrom start text parts) :
    ∀ piece ∈ parts.dropLast, openBrackets piece.2 = 0 := by
  induction h with
  | last h => simp
  | cut hfront hclosed hback ih =>
    rw [List.dropLast_cons_of_ne_nil hback.ne_nil]
    exact List.forall_mem_cons.mpr ⟨hclosed, ih⟩

theorem exists_parts (start : Nat) (text : List Char) : ∃ parts, PartsFrom start text parts :=
  have hnone : Uncut ([] : List Char).reverse := uncut_nil
  ⟨_, partsFrom_splitSelectorsFrom hnone rfl rfl text⟩

/-- The parts of a text that leaves no bracket open, and those of the text behind a comma. -/
theorem append {more : List (Nat × List Char)} (hfront : PartsFrom start front parts)
    (hclosed : openBrackets front = 0)
    (hback : PartsFrom (start + byteLength front + 1) back more) :
    PartsFrom start (front ++ ',' :: back) (parts ++ more) := by
  induction hfront with
  | last huncut => exact .cut huncut hclosed hback
  | @cut start front inner parts huncut hcut _ ih =>
    have hopen : openBrackets inner = 0 := by
      rw [List.append_cons, openBrackets_append (by rwa [openBrackets_comma])] at hclosed
      exact hclosed
    have hplace : start + byteLength (front ++ ',' :: inner) + 1 =
        start + byteLength front + 1 + byteLength inner + 1 := by
      rw [byteLength_append, byteLength_cons]
      have : (',' : Char).utf8Size = 1 := rfl
      omega
    rw [hplace] at hback
    rw [List.append_assoc, List.cons_append]
    exact .cut huncut hcut (ih hopen hback)

/-- A text has one list of parts. -/
theorem unique {parts' : List (Nat × List Char)} (h : PartsFrom start text parts)
    (h' : PartsFrom start text parts') : parts = parts' := by
  induction h generalizing parts' with
  | last huncut => exact (h'.eq_of_uncut huncut).symm
  | @cut start front back parts huncut hclosed _ ih =>
    generalize htext : front ++ ',' :: back = text at h'
    cases h' with
    | last huncut' => exact absurd hclosed (huncut' _ _ htext.symm)
    | cut huncut' hclosed' hback' =>
      obtain ⟨rfl, rfl⟩ := huncut.append_inj huncut' hclosed hclosed' htext
      rw [ih hback']

/-- A part of the list is a stretch of the text between two cuts. -/
theorem exists_of_mem (h : PartsFrom start text parts) {offset : Nat} (hpart : (offset, part) ∈ parts) :
    ∃ front back, text = front ++ part ++ back ∧ start + byteLength front = offset ∧
      IsPart front part back := by
  induction h with
  | last huncut =>
    obtain ⟨rfl, rfl⟩ := Prod.mk.inj (List.mem_singleton.mp hpart)
    exact ⟨[], [], by simp, rfl, huncut, Or.inl rfl, Or.inl rfl⟩
  | @cut start front back parts huncut hclosed _ ih =>
    rcases List.mem_cons.mp hpart with hfirst | hlater
    · obtain ⟨rfl, rfl⟩ := Prod.mk.inj hfirst
      exact ⟨[], ',' :: back, rfl, rfl, huncut, Or.inl rfl, Or.inr ⟨rfl, hclosed⟩⟩
    · obtain ⟨inner, rest, rfl, hplace, hpart⟩ := ih hlater
      refine ⟨front ++ ',' :: inner, rest, by simp, ?_, hpart.uncut, Or.inr ?_, hpart.closing⟩
      · rw [← hplace, byteLength_append, byteLength_cons]
        have : (',' : Char).utf8Size = 1 := rfl
        omega
      · rw [List.append_cons, openBrackets_append (by rwa [openBrackets_comma])]
        rcases hpart.opening with rfl | ⟨hlast, hopen⟩
        · simp [openBrackets]
        · exact ⟨by simp [List.getLast?_append, List.getLast?_cons, hlast], hopen⟩

/-- A part is the first one of the text that follows the cut before it. -/
theorem exists_of_isPart (start : Nat) (h : IsPart front part back) :
    ∃ more, PartsFrom start (part ++ back) ((start, part) :: more) := by
  rcases h.closing with rfl | ⟨hcomma, hclosed⟩
  · exact ⟨[], by simpa using PartsFrom.last h.uncut⟩
  · obtain ⟨back, rfl⟩ := List.head?_eq_some_iff.mp hcomma
    obtain ⟨more, hmore⟩ := exists_parts (start + byteLength part + 1) back
    exact ⟨more, .cut h.uncut hclosed hmore⟩

/-- A stretch of the text between two cuts is a part of the list. -/
theorem mem_of_isPart (h : PartsFrom start (front ++ part ++ back) parts)
    (hpart : IsPart front part back) : (start + byteLength front, part) ∈ parts := by
  obtain ⟨more, hmore⟩ := exists_of_isPart (start + byteLength front) hpart
  rcases hpart.opening with rfl | ⟨hcomma, hclosed⟩
  · rw [h.unique hmore]
    exact List.mem_cons_self
  · obtain ⟨front, rfl⟩ := List.getLast?_eq_some_iff.mp hcomma
    rw [openBrackets_comma] at hclosed
    obtain ⟨before, hbefore⟩ := exists_parts start front
    have hplace : start + byteLength (front ++ [',']) = start + byteLength front + 1 := by
      rw [byteLength_append]
      rfl
    rw [hplace] at hmore ⊢
    rw [List.append_assoc, List.append_assoc, List.singleton_append] at h
    rw [h.unique (hbefore.append hclosed hmore)]
    exact List.mem_append_right _ List.mem_cons_self

/-- The parts follow each other, with a comma between two. -/
theorem pairwise (h : PartsFrom start text parts) :
    parts.Pairwise fun a b => a.1 + byteLength a.2 < b.1 := by
  induction h with
  | last h => exact List.pairwise_singleton _ _
  | cut hfront hclosed hback ih =>
    refine List.pairwise_cons.mpr ⟨fun piece hpiece => ?_, ih⟩
    obtain ⟨pre, post, -, hplace, -⟩ := hback.exists_of_mem hpiece
    dsimp only
    omega

end PartsFrom

/-- The parts of a selector list are the stretches of it between two cuts. -/
theorem mem_splitSelectors_iff {offset : Nat} :
    (offset, part) ∈ splitSelectors text ↔ ∃ front back, text = front ++ part ++ back ∧
      byteLength front = offset ∧ IsPart front part back := by
  have hparts := partsFrom_splitSelectors text
  constructor
  · intro h
    simpa only [Nat.zero_add] using hparts.exists_of_mem h
  · rintro ⟨front, back, rfl, rfl, hpart⟩
    simpa only [Nat.zero_add] using hparts.mem_of_isPart hpart

/-- The parts of a list joined by commas are the list; they follow each other in it, and none but the last
leaves a bracket open. Each part stands in the list at its byte and, read as a list, is its own only part,
since no comma in it stands outside brackets. -/
theorem splitSelectors_exact (text : List Char) :
    [','].intercalate ((splitSelectors text).map Prod.snd) = text ∧
      (splitSelectors text).Pairwise (fun a b => a.1 + byteLength a.2 < b.1) ∧
      (∀ piece ∈ (splitSelectors text).dropLast, openBrackets piece.2 = 0) ∧
      ∀ piece ∈ splitSelectors text,
        (∃ pre post, text = pre ++ piece.2 ++ post ∧ byteLength pre = piece.1) ∧
        splitSelectors piece.2 = [(0, piece.2)] ∧ Uncut piece.2 := by
  have hparts := partsFrom_splitSelectors text
  refine ⟨hparts.join_eq, hparts.pairwise, hparts.openBrackets_eq_zero, fun piece hpiece => ?_⟩
  have huncut := hparts.uncut piece hpiece
  obtain ⟨pre, post, htext, hpre, -⟩ := mem_splitSelectors_iff.mp hpiece
  exact ⟨⟨pre, post, htext, hpre⟩, (partsFrom_splitSelectors piece.2).eq_of_uncut huncut, huncut⟩

/-- A list with an accent and with brackets that have no partner. -/
theorem splitSelectors_exact_lopsided :
    splitSelectors "é:is(b,c), d],e[,f".toList =
        [(0, "é:is(b,c)".toList), (11, " d]".toList), (15, "e[,f".toList)] ∧
      openBrackets " d]".toList = 0 ∧ splitSelectors "e[,f".toList = [(0, "e[,f".toList)] := by
  have hsplit : splitSelectors "é:is(b,c), d],e[,f".toList =
      [(0, "é:is(b,c)".toList), (11, " d]".toList), (15, "e[,f".toList)] := by decide
  obtain ⟨-, -, hclosed, hpieces⟩ := splitSelectors_exact "é:is(b,c), d],e[,f".toList
  rw [hsplit] at hclosed hpieces
  obtain ⟨-, hself, -⟩ := hpieces (15, "e[,f".toList) (by simp)
  exact ⟨hsplit, hclosed (11, " d]".toList) (by simp), hself⟩

end Parts

end Concordance
