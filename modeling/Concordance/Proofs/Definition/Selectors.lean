import Concordance.Definition.Stylesheet
import Concordance.Proofs.Block.Defines
import Concordance.Proofs.Source.Spans

/-!
Where the selectors of a stylesheet stand.

The head of a rule starts where no comment goes on, and the comments at its front are passed over. Its
text up to the brace is a list of selectors. Main statements: `Stylesheet.exists_head_of_mem_selectorsFrom`
(a selector is a part of such a head) and `Stylesheet.exists_site_of_mem_selectorsOf` (what stands before
and behind it).
-/

namespace Concordance

open Text

variable {s : SourceText} {path : String} {symbol : Symbol}

/-- No comment that started before the byte goes on there. -/
def SourceText.ClearAt (s : SourceText) (offset : Nat) : Prop :=
  ∀ span ∈ s.comments, span.strictlyCovers offset = false

theorem clearAt_zero (s : SourceText) : s.ClearAt 0 := fun span _ => by
  simp [Span.strictlyCovers]

theorem clearAt_of_mem_codeFrom {offset : Nat} {c : CodeChar} (h : c ∈ s.codeFrom offset) :
    s.ClearAt (c.offset + 1) := by
  intro span hspan
  have hcovers := covers_of_mem_codeFrom h span hspan
  simp only [Span.covers, Span.strictlyCovers, Bool.and_eq_false_iff,
    decide_eq_false_iff_not] at hcovers ⊢
  omega

/-- Behind a code character of one byte the next character starts. -/
theorem onBoundary_succ_of_mem_codeFrom {offset : Nat} {c : CodeChar} (h : c ∈ s.codeFrom offset)
    (hsize : c.char.utf8Size = 1) : onBoundary (c.offset + 1) s.chars = true := by
  obtain ⟨pre, post, hchars, hpre⟩ := mem_codeFrom h
  refine onBoundary_iff.mpr ⟨pre ++ [c.char], post, by simpa using hchars, ?_⟩
  rw [byteLength_append, hpre, byteLength_cons, hsize, byteLength_nil]

theorem toList_name_symbolAt (s : SourceText) (path : String) (kind : SymbolKind) (name : List Char)
    (start stop : Nat) : (s.symbolAt path kind name start stop).name.toList = name :=
  String.toList_ofList

namespace Stylesheet

/-- A selector is one of the selectors of a rule, whose head ends at an opening brace. The text before
the rule starts where the reading does, or behind a brace or a semicolon. -/
theorem exists_of_mem_selectorsFrom {P : Nat → Prop} {resume start : Nat} {blocks : List BlockKind}
    {cs : List CodeChar} (hstart : P start)
    (hcs : ∀ c ∈ cs, c.char = '{' ∨ c.char = '}' ∨ c.char = ';' → P (c.offset + 1))
    (h : symbol ∈ (selectorsFrom s path resume start blocks cs).symbols) :
    ∃ start stop close, P start ∧ ⟨stop, '{'⟩ ∈ cs ∧
      symbol ∈ selectorsOf s path (headStart s start stop) stop close := by
  induction cs generalizing resume start blocks with
  | nil => simp [selectorsFrom] at h
  | cons c cs ih =>
    obtain ⟨offset, char⟩ := c
    obtain ⟨hhere, hcs⟩ := List.forall_mem_cons.mp hcs
    have hlater : ∀ {resume start : Nat} {blocks : List BlockKind}, P start →
        symbol ∈ (selectorsFrom s path resume start blocks cs).symbols →
        ∃ start stop close, P start ∧ ⟨stop, '{'⟩ ∈ (⟨offset, char⟩ :: cs : List CodeChar) ∧
          symbol ∈ selectorsOf s path (headStart s start stop) stop close := by
      intro resume start blocks hstart h
      obtain ⟨start, stop, close, hstart, hopen, h⟩ := ih hstart hcs h
      exact ⟨start, stop, close, hstart, List.mem_cons_of_mem _ hopen, h⟩
    simp only [selectorsFrom] at h
    split at h
    · exact hlater hstart h
    · split at h
      · next hopen =>
        subst hopen
        have hnext : P (offset + 1) := hhere (Or.inl rfl)
        split at h
        · split at h
          · simp at h
          · exact hlater hstart h
        · generalize (if blocks.head? = some BlockKind.other then BlockKind.other
            else blockKind (s.slice (headStart s start offset) offset)) = kind at h
          split at h
          · split at h
            · simp at h
            · rcases List.mem_append.mp h with h | h
              · exact ⟨_, _, _, hstart, List.mem_cons_self, h⟩
              · exact hlater hnext h
          · exact hlater hnext h
      · split at h
        · next hclose => exact hlater (hhere (Or.inr (Or.inl hclose))) h
        · split at h
          · next hend => exact hlater (hhere (Or.inr (Or.inr hend))) h
          · exact hlater hstart h

section Head

/-- The start of a head behind one more comment, if nothing but white space stands before that. -/
def passComment (s : SourceText) (start : Nat) (c : Span) : Nat :=
  if start ≤ c.start && (s.slice start c.start).all isBlank then c.stop else start

theorem headStart_eq (s : SourceText) (start stop : Nat) :
    headStart s start stop = (s.comments.filter (·.start < stop)).foldl (passComment s) start :=
  rfl

theorem foldl_passComment_cases (start : Nat) (spans : List Span) :
    spans.foldl (passComment s) start = start ∨
      ∃ span ∈ spans, spans.foldl (passComment s) start = span.stop := by
  induction spans generalizing start with
  | nil => exact Or.inl rfl
  | cons c spans ih =>
    rw [List.foldl_cons]
    rcases ih (passComment s start c) with h | ⟨span, hspan, h⟩
    · rw [h, passComment]
      split
      · exact Or.inr ⟨c, List.mem_cons_self, rfl⟩
      · exact Or.inl rfl
    · exact Or.inr ⟨span, List.mem_cons_of_mem c hspan, h⟩

theorem onBoundary_headStart {start stop : Nat}
    (hstart : onBoundary start s.chars = true) : onBoundary (headStart s start stop) s.chars = true := by
  rw [headStart_eq]
  rcases foldl_passComment_cases (s := s) start (s.comments.filter (·.start < stop)) with
    h | ⟨span, hspan, h⟩
  · rwa [h]
  · rw [h]
    exact SourceText.onBoundary_stop (List.mem_filter.mp hspan).1

/-- The selectors of a text come from heads that no comment from before goes on in, each of them ended by
a brace. -/
theorem exists_head_of_mem_selectorsFrom
    (h : symbol ∈ (selectorsFrom s path 0 0 [] (s.codeFrom 0)).symbols) :
    ∃ start stop close, s.ClearAt start ∧ onBoundary (headStart s start stop) s.chars = true ∧
      ⟨stop, '{'⟩ ∈ s.codeFrom 0 ∧
      symbol ∈ selectorsOf s path (headStart s start stop) stop close := by
  obtain ⟨start, stop, close, ⟨hclear, hstart⟩, hopen, h⟩ := exists_of_mem_selectorsFrom
    (P := fun start => s.ClearAt start ∧ onBoundary start s.chars = true)
    ⟨clearAt_zero s, onBoundary_zero s.chars⟩
    (fun c hc hchar => ⟨clearAt_of_mem_codeFrom hc, onBoundary_succ_of_mem_codeFrom hc (by
      rcases hchar with h | h | h <;> rw [h] <;> rfl)⟩) h
  exact ⟨start, stop, close, hclear, onBoundary_headStart hstart, hopen, h⟩

end Head

section Site

/-- Where a selector of a head stands: behind white space, which starts where the head does or behind a
comma. Its name is what follows there up to a comma or to the brace, with the white space collapsed. -/
structure Site (s : SourceText) (path : String) (symbol : Symbol) (head stop close : Nat)
    (front blanks part post : List Char) : Prop where
  chars : s.chars = front ++ (blanks ++ (part ++ post))
  blank : AllBlank blanks
  ne_nil : part ≠ []
  named : symbol.name.toList ≠ []
  selector : SelectorBefore symbol.name.toList part post
  recorded : symbol = s.symbolAt path .selector symbol.name.toList (byteLength (front ++ blanks))
    (close + 1)
  before : byteLength (front ++ blanks) < stop
  opening : byteLength front = head ∨ front.getLast? = some ','

/-- The list of selectors stands between the start of the head and the brace. -/
theorem exists_list_of_slice {head stop : Nat} (hhead : onBoundary head s.chars = true)
    (hstop : ⟨stop, '{'⟩ ∈ s.codeFrom 0) {pre post : List Char} {c : Char}
    (hslice : s.slice head stop = pre ++ c :: post) :
    ∃ above more, s.chars = above ++ (pre ++ c :: post) ++ '{' :: more ∧ byteLength above = head ∧
      byteLength (above ++ pre) < stop := by
  obtain ⟨above, below, hchars, rfl⟩ := onBoundary_iff.mp hhead
  obtain ⟨lead, more, hlead, rfl⟩ := mem_codeFrom hstop
  rw [SourceText.slice, sliceBytes, hchars, dropBytes_byteLength] at hslice
  have hlt := byteLength_lt_of_takeBytes hslice
  obtain ⟨list, rfl, rfl⟩ :=
    exists_append_of_byteLength_le (hchars.symm.trans hlead) (by omega)
  rw [byteLength_append, Nat.add_sub_cancel_left, takeBytes_byteLength] at hslice
  refine ⟨above, more, by rw [hlead, hslice], rfl, ?_⟩
  rw [byteLength_append]
  omega

/-- The selectors of a head are recorded where they stand. -/
theorem exists_site_of_mem_selectorsOf {head stop close : Nat}
    (hhead : onBoundary head s.chars = true) (hstop : ⟨stop, '{'⟩ ∈ s.codeFrom 0)
    (h : symbol ∈ selectorsOf s path head stop close) :
    ∃ front blanks part post, Site s path symbol head stop close front blanks part post := by
  obtain ⟨⟨offset, piece⟩, hpiece, hsymbol⟩ := List.mem_filterMap.mp h
  dsimp only at hsymbol
  split at hsymbol
  · cases hsymbol
  next hname =>
  obtain rfl := Option.some.inj hsymbol
  simp only [Bool.or_eq_true, not_or, List.isEmpty_iff] at hname
  obtain ⟨blanks, part, rfl, hblanks, hpart, htrim, hself⟩ :=
    exists_blanks_of_collapseBlanks hname.1.1
  obtain ⟨pre, post, hslice, rfl, hlist⟩ := mem_splitSelectors_iff.mp hpiece
  obtain ⟨c, part, rfl⟩ := List.exists_cons_of_ne_nil hpart
  have hcut : s.slice head stop = (pre ++ blanks) ++ c :: (part ++ post) := by
    rw [hslice]
    simp
  obtain ⟨above, more, hchars, rfl, hlt⟩ := exists_list_of_slice hhead hstop hcut
  have hsite : byteLength above + byteLength pre +
      (byteLength (blanks ++ c :: part) - byteLength (trimStart (blanks ++ c :: part))) =
      byteLength (above ++ pre ++ blanks) := by
    rw [htrim, byteLength_append, Nat.add_sub_cancel, byteLength_append, byteLength_append]
  refine ⟨above ++ pre, blanks, c :: part, post ++ '{' :: more, ⟨?_, hblanks, by simp, ?_,
    hlist.selectorBefore hblanks hself (toList_name_symbolAt ..).symm more, ?_, ?_, ?_⟩⟩
  · rw [hchars]
    simp
  · rw [toList_name_symbolAt]
    exact hname.1.1
  · rw [hsite]
    rw [toList_name_symbolAt]
  · rwa [List.append_assoc]
  · rcases hlist.opening with rfl | ⟨hcomma, -⟩
    · exact Or.inl (by rw [List.append_nil])
    · exact Or.inr (by simp [List.getLast?_append, hcomma])

end Site

end Stylesheet

end Concordance
