import Concordance.Proofs.Block.Nearest
import Concordance.Proofs.Definition.Standing
import Concordance.Reading

/-!
When the line where a definition was recorded is the line where it is found again.

The readers of definitions and the search for a definition look at a text in different ways. A method
is found again whenever its line does not start like a comment, and so are the functions and the
constants of PHP. For the other kinds the line has to hold more than the reader asked for at the place of
the definition, or else as much as the search asks for at another place of the line.

Main statement: `definitionLine?_definitions_iff`.
-/

namespace Concordance

open Text

variable {s : SourceText} {symbol : Symbol} {lines : List (List Char)}

/-- What the recorded line has to hold beyond what the reader of the language found there.

The reader found a selector up to a comma or a brace (`Symbol.Selects`), an event between two quotes
(`Symbol.Quoted`), a variable of a stylesheet before a colon (`Symbol.Assigned`), and the name of a class
or a function on the line (`Symbol.Held`). It left open whether the head of the rule starts on the line
and ends soon, whether the quotes are of one kind, whether the variable is whole and its colon on the
line, and whether the class or the function of JavaScript is whole. Of a selector, an event or a variable
the line may hold all that the search asks for at another place instead. -/
def Symbol.Recognised (language : Language) (symbol : Symbol) (lines : List (List Char)) : Prop :=
  let name := symbol.name.toList
  let recorded := lines.head?.getD []
  let column := symbol.position.character
  match symbol.kind with
  | .selector =>
    ((∀ c ∈ name, isRuleMark c = false) ∧ HeadsRuleAt lines column) ∨
      ∃ other, other ≠ column ∧ HoldsSelectorAt name lines other
  | .event =>
    recorded[column - 1]? = recorded[column + name.length]? ∨
      ∃ other, other ≠ column ∧ QuotesAt name recorded other
  | .variable =>
    language = .css →
      (edge (fun c => isNameChar c || c == '$') (recorded.take column).getLast? = true ∧
          (trimStart (recorded.drop (column + name.length))).head? = some ':') ∨
        ∃ other, other ≠ column ∧ DeclaresAt name recorded other
  | .type => (∀ c ∈ name, isIdentChar c = true) → StandsAlone name recorded
  | .function =>
    language = .javascript → (∀ c ∈ name, isIdentChar c = true) → StandsAlone name recorded
  | _ => True

section Test

/-- The test of a line that does not start like a comment. -/
def passesTest (lines : List (List Char)) (symbol : Symbol) : Bool :=
  match symbol.kind with
  | .selector => startsSelector lines symbol.name.toList
  | .event => quotesName (lines.head?.getD []) symbol.name.toList
  | kind =>
    if kind = .variable &&
        (symbol.name.toList.head? == some '-' || symbol.name.toList.head? == some '$') then
      declaresVariable (lines.head?.getD []) symbol.name.toList
    else if symbol.name.toList.all isIdentChar then
      containsWord symbol.name.toList (lines.head?.getD [])
    else contains symbol.name.toList (lines.head?.getD [])

theorem definesOnFirst_iff (hname : symbol.name.toList ≠ []) :
    definesOnFirst lines symbol = true ↔
      isCommentLine (trim (lines.head?.getD [])) = false ∧ passesTest lines symbol = true := by
  have heq : definesOnFirst lines symbol =
      if symbol.name.toList.isEmpty || isCommentLine (trim (lines.head?.getD [])) then false
      else passesTest lines symbol := by
    unfold definesOnFirst passesTest
    rfl
  have hempty : symbol.name.toList.isEmpty = false := by simpa using hname
  rw [heq, hempty, Bool.false_or]
  cases isCommentLine (trim (lines.head?.getD [])) <;> simp

/-- A name by which no other kind of test is chosen is looked for as a whole identifier, if it can be
one, and otherwise anywhere. -/
theorem passesTest_iff_of_word (hkind : symbol.kind = .type ∨ symbol.kind = .function ∨
      symbol.kind = .method ∨ (symbol.kind = .variable ∧
        symbol.name.toList.head? ≠ some '-' ∧ symbol.name.toList.head? ≠ some '$'))
    (hname : symbol.name.toList ≠ []) (hheld : symbol.name.toList <:+: lines.head?.getD []) :
    passesTest lines symbol = true ↔
      ((∀ c ∈ symbol.name.toList, isIdentChar c = true) →
        StandsAlone symbol.name.toList (lines.head?.getD [])) := by
  have htest : passesTest lines symbol =
      if symbol.name.toList.all isIdentChar then
        containsWord symbol.name.toList (lines.head?.getD [])
      else contains symbol.name.toList (lines.head?.getD []) := by
    unfold passesTest
    rcases hkind with hkind | hkind | hkind | ⟨hkind, hdash, hdollar⟩
    · simp [hkind]
    · simp [hkind]
    · simp [hkind]
    · simp [hkind, hdash, hdollar]
  rw [htest]
  by_cases hall : ∀ c ∈ symbol.name.toList, isIdentChar c = true
  · rw [if_pos (List.all_eq_true.mpr hall), containsWord_iff hname hall]
    exact ⟨fun h _ => h, fun h => h hall⟩
  · rw [if_neg (by simpa using hall), contains_iff]
    exact ⟨fun _ h => absurd h hall, fun _ => hheld⟩

end Test

section Recorded

theorem recordedLine_eq (s : SourceText) (symbol : Symbol) :
    s.recordedLine symbol = ((linesWithEnds s.chars).drop symbol.position.line).head?.getD [] := by
  rw [SourceText.recordedLine, List.head?_drop]

theorem Symbol.Alone.held (h : symbol.Alone s) : symbol.Held s := by
  obtain ⟨pre, post, hline, -, -⟩ := h.alone
  exact ⟨h.toPlaced, pre, post, hline.symm⟩

theorem passesTest_of_alone (hkind : symbol.kind = .type ∨ symbol.kind = .function ∨
      symbol.kind = .method ∨ (symbol.kind = .variable ∧
        symbol.name.toList.head? ≠ some '-' ∧ symbol.name.toList.head? ≠ some '$'))
    (h : symbol.Alone s) :
    passesTest ((linesWithEnds s.chars).drop symbol.position.line) symbol = true := by
  have hheld := h.held.held
  have halone := h.alone
  rw [recordedLine_eq] at hheld halone
  exact (passesTest_iff_of_word hkind h.name hheld).mpr fun _ => halone

/-- The test of the recorded line asks for what the reader did not make sure of. -/
def TestsRecognised (language : Language) (s : SourceText) (symbol : Symbol) : Prop :=
  symbol.Placed s ∧
    (passesTest ((linesWithEnds s.chars).drop symbol.position.line) symbol = true ↔
      symbol.Recognised language ((linesWithEnds s.chars).drop symbol.position.line))

variable {path : String} {language : Language}

/-- A line passes a test at some place if it does at one of which more is known, or at another. -/
theorem exists_iff_or_elsewhere {P : Nat → Prop} {p : Prop} {column : Nat} (h : P column ↔ p) :
    (∃ n, P n) ↔ p ∨ ∃ other, other ≠ column ∧ P other := by
  constructor
  · rintro ⟨n, hn⟩
    by_cases hcolumn : n = column
    · exact Or.inl (h.mp (hcolumn ▸ hn))
    · exact Or.inr ⟨n, hcolumn, hn⟩
  · rintro (hp | ⟨other, -, hother⟩)
    · exact ⟨column, h.mpr hp⟩
    · exact ⟨other, hother⟩

/-- The quotes of an event have to be of one kind. -/
theorem testsRecognised_of_event (hkind : symbol.kind = .event) (h : symbol.Quoted s) :
    TestsRecognised language s symbol := by
  obtain ⟨front, q, q', back, hq, hq', hbetween⟩ := h.quoted
  have hnewline : ∀ {c : Char}, isQuote c = true → c ≠ '\n' := by
    rintro c hc rfl
    cases hc
  have hhere : symbol.Between s (front ++ [q]) ((symbol.name.toList ++ [q']) ++ back) := by
    simpa using hbetween
  have hmid : '\n' ∉ symbol.name.toList ++ [q'] :=
    List.not_mem_append h.oneLine (by simpa using (hnewline hq').symm)
  have hlast : lastLine (front ++ [q]) = lastLine front ++ [q] :=
    lastLine_append_of_notMem (by simpa using (hnewline hq).symm)
  have hcolumn : symbol.position.character = (lastLine front).length + 1 := by
    rw [hbetween.position_eq, hlast, List.length_append, List.length_singleton]
  obtain ⟨after, -, hline⟩ := hhere.exists_recordedLine (by simp) hmid
  have htext : lastLine (front ++ [q]) ++ (symbol.name.toList ++ [q']) ++ after =
      lastLine front ++ q :: (symbol.name.toList ++ q' :: after) := by
    rw [hlast]
    simp
  refine ⟨h.toPlaced, ?_⟩
  simp only [passesTest, Symbol.Recognised, hkind, quotesName_iff]
  rw [← recordedLine_eq, hline, htext, hcolumn]
  refine exists_iff_or_elsewhere ?_
  have hleft : (lastLine front ++ q :: (symbol.name.toList ++ q' :: after))[
      (lastLine front).length + 1 - 1]? = some q := by
    simp
  have hright : (lastLine front ++ q :: (symbol.name.toList ++ q' :: after))[
      (lastLine front).length + 1 + symbol.name.toList.length]? = some q' := by
    rw [Nat.add_assoc, List.getElem?_append_right (Nat.le_add_right _ _), Nat.add_sub_cancel_left,
      Nat.add_comm 1, List.getElem?_cons_succ, List.getElem?_append_right (Nat.le_refl _), Nat.sub_self]
    rfl
  rw [quotesAt_iff hq, hleft, hright, Option.some.injEq]

/-- The name of a variable has to stand behind nothing of a name, and the colon on its line. -/
theorem testsRecognised_of_variable (hkind : symbol.kind = .variable) (h : symbol.Assigned s)
    (hchars : ∀ c ∈ symbol.name.toList, Stylesheet.isVariableChar c = true)
    (hhead : symbol.name.toList.head? = some '-' ∨ symbol.name.toList.head? = some '$') :
    TestsRecognised .css s symbol := by
  obtain ⟨front, blanks, back, hblanks, hbetween⟩ := h.assigned
  obtain ⟨after, hafter, hline⟩ := hbetween.exists_recordedLine h.name h.oneLine
  have hcolumn : symbol.position.character = (lastLine front).length := by rw [hbetween.position_eq]
  have hright : edge isNameChar after.head? = true := by
    refine edge_head?_of_prefix hafter ?_
    cases blanks with
    | nil => rfl
    | cons c blanks =>
      have hc := hblanks c List.mem_cons_self
      simp [edge, isNameChar_of_isBlank hc]
  have hnot : ∀ c : Char, Stylesheet.isVariableChar c = false →
      symbol.name.toList.head? ≠ some c := by
    intro c hc hhead
    rw [hchars c (List.mem_of_head? hhead)] at hc
    cases hc
  have hnames : ∀ c ∈ symbol.name.toList, isNameChar c = true ∨ c = '$' := fun c hc =>
    Stylesheet.isNameChar_of_isVariableChar (hchars c hc)
  have htest : passesTest ((linesWithEnds s.chars).drop symbol.position.line) symbol =
      declaresVariable (s.recordedLine symbol) symbol.name.toList := by
    rw [recordedLine_eq]
    unfold passesTest
    rcases hhead with hhead | hhead <;> simp [hkind, hhead]
  refine ⟨h.toPlaced, ?_⟩
  rw [htest, declaresVariable_iff h.name hnames (hnot '.' (by decide)) (hnot '#' (by decide))]
  simp only [Symbol.Recognised, hkind, forall_const]
  rw [← recordedLine_eq, hline, hcolumn]
  refine exists_iff_or_elsewhere ?_
  rw [declaresAt_iff hright, ← List.length_append, List.drop_left, List.append_assoc, List.take_left]

/-- The head of a selector has to start on its line and to end soon. -/
theorem testsRecognised_of_selector (hkind : symbol.kind = .selector) (h : symbol.Selects s) :
    TestsRecognised language s symbol := by
  obtain ⟨front, part, post, hselector, hbetween⟩ := h.selects
  obtain ⟨c, rest, rfl, hc⟩ : ∃ c rest, part = c :: rest ∧ c ≠ '\n' := by
    cases part with
    | nil => exact absurd hselector.name.symm h.name
    | cons c rest =>
      refine ⟨c, rest, rfl, ?_⟩
      rintro rfl
      have hblank := trimStart_eq_self_iff.mp hselector.trimmed '\n' rfl
      cases hblank
  have hcolumn : symbol.position.character = (lastLine front).length := by rw [hbetween.position_eq]
  have hhere : symbol.Between s front ([c] ++ (rest ++ post)) := hbetween
  obtain ⟨after, -, hline⟩ := hhere.exists_recordedLine (by simp) (by simpa using hc.symm)
  have hlt : (lastLine front).length < (s.recordedLine symbol).length := by
    rw [hline]
    simp
  rw [recordedLine_eq] at hlt
  refine ⟨h.toPlaced, ?_⟩
  simp only [passesTest, Symbol.Recognised, hkind, startsSelector_iff h.name]
  rw [hcolumn]
  exact exists_iff_or_elsewhere (holdsSelectorAt_iff hbetween.flatten_drop hlt hselector)

theorem JavaScript.testsRecognised (h : symbol ∈ (JavaScript.definitions s path).symbols) :
    TestsRecognised .javascript s symbol := by
  rcases JavaScript.mem_definitions h with ⟨hkind, hheld⟩ | ⟨hkind, halone⟩ | ⟨hkind, hquoted⟩
  · refine ⟨hheld.toPlaced, ?_⟩
    have hline := hheld.held
    rw [recordedLine_eq] at hline
    rw [passesTest_iff_of_word (hkind.imp_right Or.inl) hheld.name hline]
    rcases hkind with hkind | hkind
    · simp only [Symbol.Recognised, hkind]
    · simp only [Symbol.Recognised, hkind, forall_const]
  · refine ⟨halone.toPlaced, ?_⟩
    simp only [passesTest_of_alone (Or.inr (Or.inr (Or.inl hkind))) halone, Symbol.Recognised, hkind]
  · exact testsRecognised_of_event hkind hquoted

theorem Php.testsRecognised (h : symbol ∈ (Php.definitions s path).symbols) :
    TestsRecognised .php s symbol := by
  rcases Php.mem_definitions h with
    ⟨hkind, hheld⟩ | ⟨hkind, halone⟩ | ⟨hkind, halone, hword⟩ | ⟨hkind, hquoted⟩
  · refine ⟨hheld.toPlaced, ?_⟩
    have hline := hheld.held
    rw [recordedLine_eq] at hline
    rw [passesTest_iff_of_word (Or.inl hkind) hheld.name hline]
    simp only [Symbol.Recognised, hkind]
  · refine ⟨halone.toPlaced, ?_⟩
    have htest := passesTest_of_alone (Or.inr (hkind.symm.imp_right Or.inl)) halone
    rcases hkind with hkind | hkind
    · simp only [htest, Symbol.Recognised, hkind]
    · simp [htest, Symbol.Recognised, hkind]
  · refine ⟨halone.toPlaced, ?_⟩
    have hhead : ∀ c : Char, isWordChar c = false → symbol.name.toList.head? ≠ some c := by
      intro c hc hhead
      rw [hword c (List.mem_of_head? hhead)] at hc
      cases hc
    have htest := passesTest_of_alone (Or.inr (Or.inr (Or.inr ⟨hkind, hhead '-' (by decide),
      hhead '$' (by decide)⟩))) halone
    simp [htest, Symbol.Recognised, hkind]
  · exact testsRecognised_of_event hkind hquoted

theorem Stylesheet.testsRecognised (h : symbol ∈ (Stylesheet.definitions s path).symbols) :
    TestsRecognised .css s symbol := by
  rcases Stylesheet.mem_definitions h with ⟨hkind, hselects⟩ | ⟨hkind, hassigned, hchars, hhead⟩
  · exact testsRecognised_of_selector hkind hselects
  · exact testsRecognised_of_variable hkind hassigned hchars hhead

end Recorded

/-- A definition is found again on the line where it was recorded exactly if that line does not start
like a comment and holds what the search recognises the kind by. -/
theorem definitionLine?_definitions_iff (language : Language) (content path : String)
    (h : symbol ∈ (language.definitions content path).symbols) :
    definitionLine? (linesWithEnds content.toList) symbol = some symbol.position.line ↔
      isCommentLine (trim ((linesWithEnds content.toList)[symbol.position.line]?.getD [])) = false ∧
        symbol.Recognised language
          ((linesWithEnds content.toList).drop symbol.position.line) := by
  have htests : TestsRecognised language (language.source content) symbol := by
    cases language with
    | php => exact Php.testsRecognised h
    | javascript => exact JavaScript.testsRecognised h
    | css => exact Stylesheet.testsRecognised h
  obtain ⟨hplaced, htest⟩ := htests
  rw [definitionLine?_eq_recorded_iff, DefinedAt, definesOnFirst_iff hplaced.name, List.head?_drop]
  constructor
  · rintro ⟨-, hcomment, hpasses⟩
    exact ⟨hcomment, htest.mp hpasses⟩
  · rintro ⟨hcomment, hrecognised⟩
    exact ⟨hplaced.line, hcomment, htest.mpr hrecognised⟩

/-- The definition of `f` in a file that is one line long. -/
def declaredFunction : Symbol :=
  Symbol.define "f" .function "a.js" ⟨0, 9⟩ ⟨⟨0, 9⟩, ⟨0, 15⟩⟩

theorem definitionLine?_definitions_function :
    isCommentLine (trim ((linesWithEnds "function f() {}\n".toList)[0]?.getD [])) = false ∧
      declaredFunction.Recognised .javascript
        ((linesWithEnds "function f() {}\n".toList).drop 0) := by
  have hmem : declaredFunction ∈
      (Language.javascript.definitions "function f() {}\n" "a.js").symbols := by
    decide +kernel
  exact (definitionLine?_definitions_iff .javascript _ _ hmem).mp (by decide +kernel)

/-- A method whose name follows a star on its line. -/
def generatorMethod : Symbol :=
  { Symbol.define "gen" .method "a.js" ⟨1, 3⟩ ⟨⟨1, 3⟩, ⟨1, 11⟩⟩ with container := some "A" }

/-- The line of a generator starts with a star, like a line within a comment, so the method is not
found. -/
theorem definitionLine?_generator_ne :
    generatorMethod ∈
        (Language.javascript.definitions "class A \x7b\n  *gen() {}\n\x7d\n" "a.js").symbols ∧
      definitionLine? (linesWithEnds "class A \x7b\n  *gen() {}\n\x7d\n".toList) generatorMethod ≠
        some generatorMethod.position.line := by
  refine ⟨List.mem_mergeSort.mpr ?_, ?_⟩
  · decide +kernel
  · decide +kernel

end Concordance
