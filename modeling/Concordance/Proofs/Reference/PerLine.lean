import Concordance.Proofs.Definition.Lead
import Concordance.Proofs.Reference.Uses

/-!
Which place on a line is the one that counts.

Of the candidates on a line the first that is a use is recorded, and every line with such a candidate
has its use (`Language.mem_usagesIn_iff`). Where a symbol is looked for by its name, and in PHP also by
the name of its file, the candidates are known (`Language.listsCandidates`): the inclusions of the file
and then the places of the name, each from the left to the right. Main statement:
`Language.usages_perLine`.
-/

namespace Concordance

open Text

variable {s : SourceText} {path : String} {symbol : Symbol} {u : Usage} {line : Nat}
  {candidates : List Candidate}

section FirstUse

/-- The use that counts on a line: the first of the candidates there that is one. -/
def firstUse? (s : SourceText) (path : String) (symbol : Symbol) (line : Nat)
    (candidates : List Candidate) : Option Usage :=
  (candidates.filter fun c => s.lineOf c.start == line).findSome? (·.usageOn? s path symbol line)

theorem firstUse?_cons_of_ne {c : Candidate} (h : s.lineOf c.start ≠ line) :
    firstUse? s path symbol line (c :: candidates) = firstUse? s path symbol line candidates := by
  rw [firstUse?, List.filter_cons_of_neg (by simpa using h)]
  rfl

theorem firstUse?_cons (c : Candidate) :
    firstUse? s path symbol (s.lineOf c.start) (c :: candidates) =
      (c.usageOn? s path symbol (s.lineOf c.start)).or
        (firstUse? s path symbol (s.lineOf c.start) candidates) := by
  rw [firstUse?, List.filter_cons_of_pos (by simp), List.findSome?_cons, firstUse?]
  cases c.usageOn? s path symbol (s.lineOf c.start) <;> rfl

theorem firstUse?_append (more : List Candidate) :
    firstUse? s path symbol line (candidates ++ more) =
      (firstUse? s path symbol line candidates).or (firstUse? s path symbol line more) := by
  rw [firstUse?, List.filter_append, List.findSome?_append]
  rfl

theorem firstUse?_eq_none_iff : firstUse? s path symbol line candidates = none ↔
    ∀ c ∈ candidates, s.lineOf c.start = line → c.usageOn? s path symbol line = none := by
  simp only [firstUse?, List.findSome?_eq_none_iff, List.mem_filter, beq_iff_eq, and_imp]

/-- Among candidates from the left to the right the use that counts is the leftmost one. -/
theorem firstUse?_leftmost (hsorted : candidates.Pairwise fun c d => c.start < d.start)
    (h : firstUse? s path symbol line candidates = some u) :
    ∃ c ∈ candidates, s.lineOf c.start = line ∧ c.usageOn? s path symbol line = some u ∧
      ∀ d ∈ candidates, s.lineOf d.start = line → d.usageOn? s path symbol line ≠ none →
        c.start ≤ d.start := by
  obtain ⟨front, c, back, hall, hc, hfront⟩ := List.findSome?_eq_some_iff.mp h
  have hmem : ∀ d, d ∈ front ∨ d = c ∨ d ∈ back ↔ d ∈ candidates ∧ s.lineOf d.start = line := by
    intro d
    rw [← List.mem_cons, ← List.mem_append, ← hall, List.mem_filter, beq_iff_eq]
  obtain ⟨hcandidate, hline⟩ := (hmem c).mp (Or.inr (Or.inl rfl))
  refine ⟨c, hcandidate, hline, hc, fun d hd hdline huse => ?_⟩
  have horder := hsorted.filter fun c => s.lineOf c.start == line
  rw [hall] at horder
  rcases (hmem d).mpr ⟨hd, hdline⟩ with hd | rfl | hd
  · exact absurd (hfront d hd) huse
  · exact Nat.le_refl _
  · have hback := (List.pairwise_append.mp horder).2.1
    exact Nat.le_of_lt ((List.pairwise_cons.mp hback).1 d hd)

theorem line_of_usageOn? {c : Candidate} (h : c.usageOn? s path symbol line = some u)
    (hline : s.lineOf c.start = line) : u.position.line = line := by
  rw [(Candidate.usageOn?_eq_some h).2.2.2.1, ← lineOf_eq, hline]

theorem line_of_firstUse? (h : firstUse? s path symbol line candidates = some u) :
    u.position.line = line := by
  obtain ⟨c, hc, hon⟩ := List.exists_of_findSome?_eq_some h
  exact line_of_usageOn? hon (by simpa using (List.mem_filter.mp hc).2)

/-- A use is found exactly if it is the one that counts on its line, and that line was not seen. -/
theorem mem_firstPerLine_iff {seen : List Nat} :
    u ∈ firstPerLine s path symbol seen candidates ↔ u.position.line ∉ seen ∧
      firstUse? s path symbol u.position.line candidates = some u := by
  induction candidates generalizing seen with
  | nil => simp [firstPerLine, firstUse?]
  | cons c rest ih =>
    simp only [firstPerLine, List.contains_iff_mem]
    by_cases hline : s.lineOf c.start = u.position.line
    · rw [← hline] at ih ⊢
      rw [firstUse?_cons]
      by_cases hseen : s.lineOf c.start ∈ seen
      · rw [if_pos hseen, ih]
        simp only [hseen, not_true, false_and]
      · rw [if_neg hseen]
        cases hv : c.usageOn? s path symbol (s.lineOf c.start) with
        | none => rw [ih, Option.none_or]
        | some v =>
          rw [List.mem_cons, ih, Option.some_or, Option.some_inj]
          simp only [List.mem_cons_self, not_true, false_and, or_false, hseen, not_false_iff,
            true_and, eq_comm]
    · rw [firstUse?_cons_of_ne hline]
      split
      · exact ih
      · split
        · next v hv =>
          -- the use of another line is not `u`, and neither does it hide it
          have hne : u ≠ v := by
            rintro rfl
            exact hline (line_of_usageOn? hv rfl).symm
          rw [List.mem_cons, ih, List.mem_cons, not_or]
          simp only [hne, false_or, Ne.symm hline, not_false_iff, true_and]
        · exact ih

end FirstUse

section Places

/-- What stands around a stretch of the text. -/
def SourceText.occurrenceAt (s : SourceText) (size offset : Nat) : Occurrence :=
  ⟨(takeBytes offset s.chars).getLast?, offset, dropBytes (offset + size) s.chars⟩

/-- A whole occurrence of a name is determined by where it starts. -/
theorem occurrenceAt_offset {name : List Char} {o : Occurrence}
    (h : o ∈ wholeOccurrences name s.chars) : s.occurrenceAt (byteLength name) o.offset = o := by
  unfold wholeOccurrences at h
  split at h
  · cases h
  · next hne =>
    obtain ⟨pre, hchars, hbefore, hoffset⟩ :=
      mem_occurrences (by simpa using hne) (List.mem_filter.mp h).1
    obtain ⟨before, offset, after⟩ := o
    subst hbefore hoffset
    have hfront : takeBytes (byteLength pre) s.chars = pre := by
      rw [hchars, List.append_assoc, takeBytes_byteLength]
    have hback : dropBytes (byteLength pre + byteLength name) s.chars = after := by
      rw [hchars, ← byteLength_append, dropBytes_byteLength]
    rw [SourceText.occurrenceAt, hfront, hback]

theorem slice_all (s : SourceText) : s.slice 0 s.length = s.chars := by
  have hall := takeBytes_byteLength s.chars []
  rw [List.append_nil] at hall
  rw [SourceText.slice, sliceBytes, dropBytes_zero, Nat.sub_zero, SourceText.length, hall]

namespace Language

/-- The bytes where the name of a symbol stands as a whole. -/
def nameOffsets (language : Language) (s : SourceText) (symbol : Symbol) : List Nat :=
  let name := symbol.name.toList
  match language, symbol.kind with
  | .php, .type | .php, .function | .php, .method | .php, .variable => wordOffsets name s.chars
  | .javascript, .type | .javascript, .function | .javascript, .method => wordOffsets name s.chars
  | .javascript, .variable | .css, .variable => tokenOffsets name s.chars
  | _, _ => []

/-- The name at the byte stands where it does not use the symbol: a function is not used where a member
or a declaration is named, a method only where a member is named (in PHP also in quotes), a constant not
where a property is named, and a stylesheet variable not where it is declared. -/
def skipsName (language : Language) (s : SourceText) (symbol : Symbol) (offset : Nat) : Bool :=
  let before := trimEnd (s.beforeOnLine offset)
  let size := byteLength symbol.name.toList
  match language, symbol.kind with
  | .javascript, .function => before.getLast? == some '.' || endsWithWord "function".toList before
  | .javascript, .method => before.getLast? != some '.'
  | .php, .function => Php.accessesMember before || endsWithWord "function".toList before
  | .php, .method => !Php.accessesMember before && !Php.isQuoted (s.occurrenceAt size offset)
  | .php, .variable => "->".toList.isSuffixOf before
  | .css, .variable => (trimStart (s.afterOnLine (offset + size))).head? == some ':'
  | _, _ => false

/-- The paths in statements of PHP that include the file of a class or a function. -/
def includedNames (language : Language) (s : SourceText) (symbol : Symbol) : List FoundName :=
  match language, symbol.kind with
  | .php, .type | .php, .function =>
    (s.names Php.inclusion).filter fun n => baseName n.text == baseName symbol.filePath.toList
  | _, _ => []

/-- The name at the byte is a use: it stands in code and is not skipped. -/
structure UsesName (language : Language) (s : SourceText) (symbol : Symbol) (offset : Nat) :
    Prop where
  stands : offset ∈ language.nameOffsets s symbol
  kept : language.skipsName s symbol offset = false
  code : s.inComment offset = false

/-- The path is a use: it stands in code and names the file of the symbol. -/
structure UsesPath (language : Language) (s : SourceText) (symbol : Symbol) (n : FoundName) :
    Prop where
  includes : n ∈ language.includedNames s symbol
  code : s.inComment n.start = false

end Language

end Places

section Candidates

theorem Php.inclusions_eq : Php.inclusions s symbol =
    ((s.names Php.inclusion).filter fun n => baseName n.text == baseName symbol.filePath.toList).map
      fun n => .sure n.start n.stop .inclusion := by
  unfold Php.inclusions SourceText.names SourceText.namesIn
  rw [slice_all, List.filter_filterMap, List.map_filterMap]
  apply List.filterMap_congr
  intro m _
  cases m.group? 1 with
  | none => rfl
  | some g =>
    simp only [Option.bind_some, Option.map_some, Option.filter_some]
    split <;> rfl

theorem Php.finds_inclusion : Php.inclusion.Finds
    [.wordEdge, Pattern.keyword ["require", "include"], Pattern.optional (Pattern.literal "_once"),
      .wordEdge,
      .many false (.seq (.run fun c => c != ';' && c != '\n' && c != '\'' && c != '"') Php.quote),
      .run fun c => c != ';' && c != '\n' && c != '\'' && c != '"', Php.quote]
    Php.unquoted [Php.quote] fun _ => true :=
  ⟨fun _ _ h => h, ⟨rfl, rfl, rfl⟩, Pattern.Advances.seq Pattern.advances_one,
    fun _ _ _ _ _ _ _ => rfl⟩

/-- The answer for a name is that it is no use exactly if the name is skipped, and else a use that is
no inclusion. -/
def AnswersName (skipped : Bool) (use? : Option UsageKind) : Prop :=
  if skipped then use? = none else ∃ kind, kind ≠ .inclusion ∧ use? = some kind

section Answers

variable (s : SourceText) (o : Occurrence) (start stop : Nat)

theorem Php.answersName_classUse : AnswersName false (some (Php.classUse s start stop)) := by
  refine ⟨_, ?_, rfl⟩
  unfold Php.classUse
  dsimp only
  split_ifs <;> decide

theorem Php.answersName_functionUse? : AnswersName
    (Php.accessesMember (trimEnd (s.beforeOnLine o.offset)) ||
      endsWithWord "function".toList (trimEnd (s.beforeOnLine o.offset)))
    (Php.functionUse? s o stop) := by
  unfold AnswersName Php.functionUse?
  dsimp only
  split_ifs
  · rfl
  all_goals exact ⟨_, by decide, rfl⟩

theorem Php.answersName_methodUse? : AnswersName
    (!Php.accessesMember (trimEnd (s.beforeOnLine o.offset)) && !Php.isQuoted o)
    (Php.methodUse? s o stop) := by
  unfold AnswersName Php.methodUse?
  cases Php.accessesMember (trimEnd (s.beforeOnLine o.offset)) <;> cases Php.isQuoted o <;>
    cases isCalled s stop <;> simp

theorem Php.answersName_constantUse? : AnswersName
    ("->".toList.isSuffixOf (trimEnd (s.beforeOnLine o.offset))) (Php.constantUse? s o) := by
  unfold AnswersName Php.constantUse?
  split_ifs
  · rfl
  · exact ⟨_, by decide, rfl⟩

theorem JavaScript.answersName_classUse :
    AnswersName false (some (JavaScript.classUse s start stop)) := by
  refine ⟨_, ?_, rfl⟩
  unfold JavaScript.classUse
  dsimp only
  split_ifs <;> decide

theorem JavaScript.answersName_functionUse? : AnswersName
    ((trimEnd (s.beforeOnLine start)).getLast? == some '.' ||
      endsWithWord "function".toList (trimEnd (s.beforeOnLine start)))
    (JavaScript.functionUse? s start stop) := by
  unfold AnswersName JavaScript.functionUse?
  dsimp only
  split_ifs
  · rfl
  all_goals exact ⟨_, by decide, rfl⟩

theorem JavaScript.answersName_methodUse? : AnswersName
    ((trimEnd (s.beforeOnLine start)).getLast? != some '.') (JavaScript.methodUse? s start stop) := by
  unfold AnswersName JavaScript.methodUse?
  cases h : (trimEnd (s.beforeOnLine start)).getLast? == some '.'
  · simp [bne, h]
  · cases isCalled s stop <;> simp [bne, h]

theorem Stylesheet.answersName_variable : AnswersName
    ((trimStart (s.afterOnLine stop)).head? == some ':')
    (if (trimStart (s.afterOnLine stop)).head? == some ':' then none else some .reference) := by
  unfold AnswersName
  split_ifs
  · rfl
  · exact ⟨_, by decide, rfl⟩

end Answers

/-- The candidates for a symbol are the inclusions of its file and then the places of its name. -/
def Language.ListsCandidates (language : Language) (s : SourceText) (symbol : Symbol) : Prop :=
  ∃ use? : Nat → Option UsageKind,
    language.candidates s symbol =
      ((language.includedNames s symbol).map fun n => .sure n.start n.stop .inclusion) ++
        (language.nameOffsets s symbol).map
          (fun o => ⟨o, o + byteLength symbol.name.toList, fun _ => use? o⟩) ∧
    ∀ o, AnswersName (language.skipsName s symbol o) (use? o)

theorem answersName_reference : AnswersName false (some .reference) :=
  ⟨_, by decide, rfl⟩

/-- The candidates at the occurrences of a name are those at its offsets. -/
theorem map_wholeOccurrences (s : SourceText) (name : List Char)
    (use? : Occurrence → Nat → Option UsageKind) :
    (wholeOccurrences name s.chars).map (fun o =>
        Candidate.mk o.offset (o.offset + byteLength name)
          fun _ => use? o (o.offset + byteLength name)) =
      (wordOffsets name s.chars).map (fun o =>
        ⟨o, o + byteLength name,
          fun _ => use? (s.occurrenceAt (byteLength name) o) (o + byteLength name)⟩) := by
  rw [wordOffsets, List.map_map]
  apply List.map_congr_left
  intro o ho
  rw [Function.comp_apply, occurrenceAt_offset ho]

theorem Php.listsCandidates (hevent : symbol.kind ≠ .event) (hselector : symbol.kind ≠ .selector) :
    Language.ListsCandidates .php s symbol := by
  unfold Language.ListsCandidates Language.candidates Php.candidates Language.includedNames
    Language.nameOffsets Language.skipsName
  cases hkind : symbol.kind with
  | type =>
    refine ⟨fun o => some (Php.classUse s o (o + byteLength symbol.name.toList)), ?_, fun o => ?_⟩
    · dsimp only
      rw [Php.inclusions_eq, map_wholeOccurrences s _ fun o stop => some (classUse s o.offset stop)]
      rfl
    · exact Php.answersName_classUse s o _
  | function =>
    refine ⟨fun o => Php.functionUse? s (s.occurrenceAt (byteLength symbol.name.toList) o)
      (o + byteLength symbol.name.toList), ?_, fun o => ?_⟩
    · dsimp only
      rw [Php.inclusions_eq, map_wholeOccurrences s _ (Php.functionUse? s)]
    · exact Php.answersName_functionUse? s (s.occurrenceAt (byteLength symbol.name.toList) o) _
  | method =>
    refine ⟨fun o => Php.methodUse? s (s.occurrenceAt (byteLength symbol.name.toList) o)
      (o + byteLength symbol.name.toList), ?_, fun o => ?_⟩
    · dsimp only
      rw [map_wholeOccurrences s _ (Php.methodUse? s)]
      rfl
    · exact Php.answersName_methodUse? s (s.occurrenceAt (byteLength symbol.name.toList) o) _
  | «variable» =>
    refine ⟨fun o => Php.constantUse? s (s.occurrenceAt (byteLength symbol.name.toList) o), ?_,
      fun o => ?_⟩
    · dsimp only
      rw [map_wholeOccurrences s _ fun o _ => Php.constantUse? s o]
      rfl
    · exact Php.answersName_constantUse? s (s.occurrenceAt (byteLength symbol.name.toList) o)
  | file => exact ⟨fun _ => some .reference, rfl, fun _ => answersName_reference⟩
  | event => exact absurd hkind hevent
  | selector => exact absurd hkind hselector

theorem JavaScript.listsCandidates (hevent : symbol.kind ≠ .event)
    (hselector : symbol.kind ≠ .selector) : Language.ListsCandidates .javascript s symbol := by
  unfold Language.ListsCandidates Language.candidates JavaScript.candidates Language.includedNames
    Language.nameOffsets Language.skipsName
  cases hkind : symbol.kind with
  | type =>
    exact ⟨fun o => some (JavaScript.classUse s o (o + byteLength symbol.name.toList)), rfl,
      fun o => JavaScript.answersName_classUse s o _⟩
  | function =>
    exact ⟨fun o => JavaScript.functionUse? s o (o + byteLength symbol.name.toList), rfl,
      fun o => JavaScript.answersName_functionUse? s o _⟩
  | method =>
    exact ⟨fun o => JavaScript.methodUse? s o (o + byteLength symbol.name.toList), rfl,
      fun o => JavaScript.answersName_methodUse? s o _⟩
  | «variable» => exact ⟨fun _ => some .reference, rfl, fun _ => answersName_reference⟩
  | file => exact ⟨fun _ => some .reference, rfl, fun _ => answersName_reference⟩
  | event => exact absurd hkind hevent
  | selector => exact absurd hkind hselector

theorem Stylesheet.listsCandidates (hselector : symbol.kind ≠ .selector) :
    Language.ListsCandidates .css s symbol := by
  unfold Language.ListsCandidates Language.candidates Stylesheet.candidates Language.includedNames
    Language.nameOffsets Language.skipsName
  cases hkind : symbol.kind with
  | «variable» =>
    exact ⟨fun o =>
        if (trimStart (s.afterOnLine (o + byteLength symbol.name.toList))).head? == some ':' then none
        else some .reference, rfl, fun o => Stylesheet.answersName_variable s _⟩
  | selector => exact absurd hkind hselector
  | _ => exact ⟨fun _ => some .reference, rfl, fun _ => answersName_reference⟩

theorem Language.listsCandidates (language : Language) (hevent : symbol.kind ≠ .event)
    (hselector : symbol.kind ≠ .selector) : language.ListsCandidates s symbol := by
  cases language with
  | php => exact Php.listsCandidates hevent hselector
  | javascript => exact JavaScript.listsCandidates hevent hselector
  | css => exact Stylesheet.listsCandidates hselector

end Candidates

section PerLine

variable {language : Language}

theorem Language.pairwise_nameOffsets : (language.nameOffsets s symbol).Pairwise (· < ·) := by
  unfold Language.nameOffsets
  dsimp only
  split
  all_goals first
    | exact pairwise_wordOffsets _ _
    | exact pairwise_tokenOffsets _ _
    | exact List.Pairwise.nil

theorem Language.pairwise_includedNames :
    (language.includedNames s symbol).Pairwise fun n n' => n.start < n'.start := by
  have hnames := pairwise_start_namesIn Php.finds_inclusion s 0 s.length
  unfold Language.includedNames
  split
  · exact hnames.filter _
  · exact hnames.filter _
  · exact List.Pairwise.nil

/-- A use is found exactly if it is the one that counts on its line. -/
theorem Language.mem_usagesIn_iff : u ∈ language.usagesIn s path symbol ↔
    firstUse? s path symbol u.position.line (language.candidates s symbol) = some u := by
  rw [Language.usagesIn, collectUsages, List.mem_mergeSort, mem_firstPerLine_iff]
  simp only [List.not_mem_nil, not_false_iff, true_and]

/-- A line has a use exactly if one of the candidates on it is one. -/
theorem Language.exists_usage_on_line_iff :
    (∃ u ∈ language.usagesIn s path symbol, u.position.line = line) ↔
      ∃ c ∈ language.candidates s symbol, s.lineOf c.start = line ∧
        c.usageOn? s path symbol line ≠ none := by
  constructor
  · rintro ⟨u, hu, rfl⟩
    by_contra hnone
    push Not at hnone
    have hfirst := Language.mem_usagesIn_iff.mp hu
    rw [firstUse?_eq_none_iff.mpr hnone] at hfirst
    cases hfirst
  · rintro ⟨c, hc, hline, huse⟩
    cases hfirst : firstUse? s path symbol line (language.candidates s symbol) with
    | none => exact absurd (firstUse?_eq_none_iff.mp hfirst c hc hline) huse
    | some u =>
      obtain rfl := line_of_firstUse? hfirst
      exact ⟨u, Language.mem_usagesIn_iff.mpr hfirst, rfl⟩

theorem Candidate.usageOn?_ne_none_iff {c : Candidate} : c.usageOn? s path symbol line ≠ none ↔
    s.inComment c.start = false ∧ symbol.isDefinitionSite path line = false ∧ c.use? () ≠ none := by
  unfold Candidate.usageOn?
  split
  · next h =>
    simp only [ne_eq, not_true, false_iff]
    rintro ⟨hcode, hsite, -⟩
    simp [hcode, hsite] at h
  · next h =>
    rw [Bool.not_eq_true, Bool.or_eq_false_iff] at h
    simp only [ne_eq, Option.map_eq_none_iff, h.1, h.2, true_and]

theorem Candidate.kind_of_usageOn? {c : Candidate} (h : c.usageOn? s path symbol line = some u) :
    c.use? () = some u.kind := by
  unfold Candidate.usageOn? at h
  split at h
  · cases h
  · obtain ⟨kind, hkind, rfl⟩ := Option.map_eq_some_iff.mp h
    exact hkind

theorem AnswersName.ne_none_iff {skipped : Bool} {use? : Option UsageKind}
    (h : AnswersName skipped use?) : use? ≠ none ↔ skipped = false := by
  unfold AnswersName at h
  split at h
  · next hskip => simp [h, hskip]
  · next hkeep =>
    obtain ⟨kind, -, rfl⟩ := h
    simpa using hkeep

theorem AnswersName.ne_inclusion {skipped : Bool} {kind : UsageKind}
    (h : AnswersName skipped (some kind)) : kind ≠ .inclusion := by
  unfold AnswersName at h
  split at h
  · cases h
  · obtain ⟨kind', hkind, heq⟩ := h
    rwa [Option.some_inj.mp heq]

/-- Where an inclusion of the file counts, it is the leftmost one on the line. -/
theorem Language.exists_usesPath_of_firstUse?
    (h : firstUse? s path symbol line ((language.includedNames s symbol).map fun n =>
      .sure n.start n.stop .inclusion) = some u) :
    ∃ n, language.UsesPath s symbol n ∧ u.position = s.positionAt n.start ∧
      u.range = s.range n.start n.stop ∧ u.kind = .inclusion ∧
      ∀ n', language.UsesPath s symbol n' → s.lineOf n'.start = line → n.start ≤ n'.start := by
  obtain ⟨c, hc, -, hon, hleft⟩ :=
    firstUse?_leftmost (List.pairwise_map.mpr Language.pairwise_includedNames) h
  obtain ⟨n, hn, rfl⟩ := List.mem_map.mp hc
  obtain ⟨hcode, hsite, -, hposition, hrange, -⟩ := Candidate.usageOn?_eq_some hon
  refine ⟨n, ⟨hn, hcode⟩, hposition, hrange, ?_, fun n' hn' hline => ?_⟩
  · exact (Option.some_inj.mp (Candidate.kind_of_usageOn? hon)).symm
  · exact hleft _ (List.mem_map_of_mem hn'.includes) hline
      (Candidate.usageOn?_ne_none_iff.mpr ⟨hn'.code, hsite, Option.some_ne_none _⟩)

/-- Where a name counts, it is the leftmost one on the line. -/
theorem Language.exists_usesName_of_firstUse? {use? : Nat → Option UsageKind}
    (hanswers : ∀ o, AnswersName (language.skipsName s symbol o) (use? o))
    (h : firstUse? s path symbol line ((language.nameOffsets s symbol).map
      fun o => ⟨o, o + byteLength symbol.name.toList, fun _ => use? o⟩) = some u) :
    ∃ o, language.UsesName s symbol o ∧ u.position = s.positionAt o ∧
      u.range = s.range o (o + byteLength symbol.name.toList) ∧ u.kind ≠ .inclusion ∧
      ∀ o', language.UsesName s symbol o' → s.lineOf o' = line → o ≤ o' := by
  obtain ⟨c, hc, -, hon, hleft⟩ :=
    firstUse?_leftmost (List.pairwise_map.mpr Language.pairwise_nameOffsets) h
  obtain ⟨o, ho, rfl⟩ := List.mem_map.mp hc
  obtain ⟨hcode, hsite, -, hposition, hrange, -⟩ := Candidate.usageOn?_eq_some hon
  have hkind : use? o = some u.kind := Candidate.kind_of_usageOn? hon
  have hkept : language.skipsName s symbol o = false :=
    (hanswers o).ne_none_iff.mp (hkind ▸ Option.some_ne_none _)
  refine ⟨o, ⟨ho, hkept, hcode⟩, hposition, hrange, ?_, fun o' ho' hline => ?_⟩
  · exact (hkind ▸ hanswers o).ne_inclusion
  · exact hleft _ (List.mem_map_of_mem ho'.stands) hline
      (Candidate.usageOn?_ne_none_iff.mpr ⟨ho'.code, hsite, (hanswers o').ne_none_iff.mpr ho'.kept⟩)

/-- A line has a use exactly if it is not the one that defines the symbol and an inclusion of its file
or a name of it is used there. -/
theorem Language.exists_usage_on_line_iff_uses (hevent : symbol.kind ≠ .event)
    (hselector : symbol.kind ≠ .selector) :
    (∃ u ∈ language.usagesIn s path symbol, u.position.line = line) ↔
      symbol.isDefinitionSite path line = false ∧
        ((∃ n, language.UsesPath s symbol n ∧ s.lineOf n.start = line) ∨
          ∃ o, language.UsesName s symbol o ∧ s.lineOf o = line) := by
  obtain ⟨use?, hcandidates, hanswers⟩ := language.listsCandidates (s := s) hevent hselector
  rw [Language.exists_usage_on_line_iff, hcandidates]
  simp only [Candidate.usageOn?_ne_none_iff]
  constructor
  · rintro ⟨c, hc, hline, hcode, hsite, huse⟩
    refine ⟨hsite, ?_⟩
    rcases List.mem_append.mp hc with hc | hc
    · obtain ⟨n, hn, rfl⟩ := List.mem_map.mp hc
      exact Or.inl ⟨n, ⟨hn, hcode⟩, hline⟩
    · obtain ⟨o, ho, rfl⟩ := List.mem_map.mp hc
      exact Or.inr ⟨o, ⟨ho, (hanswers o).ne_none_iff.mp huse, hcode⟩, hline⟩
  · rintro ⟨hsite, ⟨n, hn, hline⟩ | ⟨o, ho, hline⟩⟩
    · exact ⟨_, List.mem_append_left _ (List.mem_map_of_mem hn.includes), hline, hn.code, hsite,
        Option.some_ne_none _⟩
    · exact ⟨_, List.mem_append_right _ (List.mem_map_of_mem ho.stands), hline, ho.code, hsite,
        (hanswers o).ne_none_iff.mpr ho.kept⟩

/-- Where a symbol is looked for by its name, and a class or function of PHP also by its file, each line
but the one that defines it has exactly one use if a name or an inclusion is used there, and else none.
That use stands at the leftmost inclusion on the line or, where there is none, at the leftmost name. -/
theorem Language.usages_perLine (language : Language) (content path : String) (symbol : Symbol)
    (hevent : symbol.kind ≠ .event) (hselector : symbol.kind ≠ .selector) :
    (∀ line, (∃ u ∈ language.usages content path symbol, u.position.line = line) ↔
      symbol.isDefinitionSite path line = false ∧
        ((∃ n, language.UsesPath (language.source content) symbol n ∧
            (language.source content).lineOf n.start = line) ∨
          ∃ o, language.UsesName (language.source content) symbol o ∧
            (language.source content).lineOf o = line)) ∧
    (language.usages content path symbol).Pairwise (fun u v => u.position.line ≠ v.position.line) ∧
    ∀ u ∈ language.usages content path symbol,
      (∃ n, language.UsesPath (language.source content) symbol n ∧
        u.position = (language.source content).positionAt n.start ∧
        u.range = (language.source content).range n.start n.stop ∧ u.kind = .inclusion ∧
        ∀ n', language.UsesPath (language.source content) symbol n' →
          (language.source content).lineOf n'.start = u.position.line → n.start ≤ n'.start) ∨
      ∃ o, language.UsesName (language.source content) symbol o ∧
        u.position = (language.source content).positionAt o ∧
        u.range = (language.source content).range o (o + byteLength symbol.name.toList) ∧
        u.kind ≠ .inclusion ∧
        (∀ n, language.UsesPath (language.source content) symbol n →
          (language.source content).lineOf n.start ≠ u.position.line) ∧
        ∀ o', language.UsesName (language.source content) symbol o' →
          (language.source content).lineOf o' = u.position.line → o ≤ o' := by
  refine ⟨fun line => Language.exists_usage_on_line_iff_uses hevent hselector,
    language.pairwise_usagesIn _ path symbol, fun u hu => ?_⟩
  obtain ⟨use?, hcandidates, hanswers⟩ := language.listsCandidates
    (s := language.source content) hevent hselector
  have hfirst := Language.mem_usagesIn_iff.mp hu
  rw [hcandidates, firstUse?_append, Option.or_eq_some_iff] at hfirst
  rcases hfirst with hpath | ⟨hnone, hname⟩
  · exact Or.inl (Language.exists_usesPath_of_firstUse? hpath)
  · obtain ⟨o, ho, hposition, hrange, hkind, hleft⟩ :=
      Language.exists_usesName_of_firstUse? hanswers hname
    refine Or.inr ⟨o, ho, hposition, hrange, hkind, fun n hn hline => ?_, hleft⟩
    have hsite := (Language.filePath_of_mem_usagesIn hu).2
    exact Candidate.usageOn?_ne_none_iff.mpr ⟨hn.code, hsite, Option.some_ne_none _⟩
      (firstUse?_eq_none_iff.mp hnone _ (List.mem_map_of_mem hn.includes) hline)

/-- A function that is included and called on one line, and called twice on the next behind a method of
its name. -/
def includedGreeting : Symbol :=
  { id := "", name := "greet", kind := .function, filePath := "a.php", position := ⟨1, 9⟩,
    range := ⟨⟨1, 9⟩, ⟨1, 14⟩⟩ }

/-- The text that calls it. -/
def greetingCalls : String :=
  "<?php\nrequire 'a.php'; greet();\n$x->greet(); greet(1); greet(2);\n"

theorem Language.usages_perLine_greetingCalls :
    includedGreeting.kind ≠ .event ∧ includedGreeting.kind ≠ .selector ∧
    (∃ u ∈ Language.php.usages greetingCalls "b.php" includedGreeting,
      u.position.line = 1 ∧ u.kind = .inclusion) ∧
    ∃ u ∈ Language.php.usages greetingCalls "b.php" includedGreeting,
      u.position = ⟨2, 13⟩ ∧ u.kind ≠ .inclusion := by
  have hpath : Language.php.UsesPath (Language.php.source greetingCalls) includedGreeting
      ⟨"a.php".toList, 15, 20, 21⟩ := ⟨by decide +kernel, by decide +kernel⟩
  have hname : Language.php.UsesName (Language.php.source greetingCalls) includedGreeting 45 :=
    ⟨by decide +kernel, by decide +kernel, by decide +kernel⟩
  obtain ⟨hlines, -, hleft⟩ := Language.usages_perLine .php greetingCalls "b.php" includedGreeting
    (by decide) (by decide)
  refine ⟨by decide, by decide, ?_, ?_⟩
  · obtain ⟨u, hu, hline⟩ := (hlines 1).mpr ⟨by decide, Or.inl ⟨_, hpath, by decide +kernel⟩⟩
    rcases hleft u hu with ⟨n, -, -, -, hkind, -⟩ | ⟨o, -, -, -, -, hnone, -⟩
    · exact ⟨u, hu, hline, hkind⟩
    · exact absurd (hline ▸ by decide +kernel) (hnone _ hpath)
  · obtain ⟨u, hu, hline⟩ := (hlines 2).mpr ⟨by decide, Or.inr ⟨_, hname, by decide +kernel⟩⟩
    rcases hleft u hu with ⟨n, hn, hposition, -⟩ | ⟨o, ho, hposition, -, hkind, -, hmin⟩
    · have honly : ∀ n ∈ Language.php.includedNames (Language.php.source greetingCalls)
          includedGreeting, ((Language.php.source greetingCalls).positionAt n.start).line = 1 := by
        decide +kernel
      rw [hposition, honly n hn.includes] at hline
      cases hline
    · have hplaces : ∀ o ∈ Language.php.nameOffsets (Language.php.source greetingCalls)
          includedGreeting, Language.php.skipsName (Language.php.source greetingCalls)
            includedGreeting o = false →
          ((Language.php.source greetingCalls).positionAt o).line = 2 → o ≤ 45 →
          (Language.php.source greetingCalls).positionAt o = ⟨2, 13⟩ := by
        decide +kernel
      have hle : o ≤ 45 := hmin 45 hname (hline ▸ by decide +kernel)
      exact ⟨u, hu, hposition.trans
        (hplaces o ho.stands ho.kept (hposition ▸ hline) hle), hkind⟩

end PerLine

end Concordance
