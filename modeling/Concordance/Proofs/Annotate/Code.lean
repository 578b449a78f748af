import Concordance.Proofs.Annotate.Run
import Concordance.Proofs.Block.Written
import Concordance.Proofs.Source.BareCode
import Concordance.Reading

/-!
What annotating does to the code of a file.

A block that is put where code stands is a comment and adds no code. What an edit takes away is found
line by line, without the reading for comments, and may hold code.

Main statements: `bareCode_apply` (an edit takes the code of the lines that it replaces) and
`bareCode_annotateText_iff` (the code of a file is kept exactly if the lines that are replaced hold
none).
-/

namespace Concordance

open Text

section Closeless

/-- The text does not end a block comment. -/
def Closeless (t : List Char) : Prop :=
  ¬ "*/".toList <:+: t

instance (t : List Char) : Decidable (Closeless t) :=
  inferInstanceAs (Decidable (¬ "*/".toList <:+: t))

variable {x y : List Char}

theorem Closeless.append (hx : Closeless x) (hy : Closeless y) (h : y.head? ≠ some '/') :
    Closeless (x ++ y) := by
  induction x with
  | nil => exact hy
  | cons c x ih =>
    have hx' : Closeless x := fun hmark => hx (hmark.trans (List.suffix_cons c x).isInfix)
    intro hmark
    rcases List.infix_cons_iff.mp hmark with hpre | hmark
    · have hpre : ['*', '/'] <+: c :: (x ++ y) := hpre
      obtain ⟨rfl, hslash⟩ := List.cons_prefix_cons.mp hpre
      cases x with
      | nil =>
        obtain ⟨rest, rfl⟩ := hslash
        simp at h
      | cons d ds =>
        obtain ⟨rfl, -⟩ := List.cons_prefix_cons.mp hslash
        exact hx ⟨[], ds, rfl⟩
    · exact ih hx' hmark

theorem closeless_of_notMem (h : '*' ∉ x) : Closeless x := fun hmark =>
  h (hmark.mem (by decide))

theorem Closeless.space_cons (h : Closeless x) : Closeless (' ' :: x) := by
  intro hmark
  rcases List.infix_cons_iff.mp hmark with hpre | hmark
  · exact absurd (List.cons_prefix_cons.mp hpre).1 (by decide)
  · exact h hmark

theorem Text.AllBlank.closeless (h : AllBlank x) : Closeless x :=
  closeless_of_notMem fun hmem => absurd (h '*' hmem) (by decide)

theorem Text.AllBlank.head?_append (h : AllBlank x) (hy : y.head? ≠ some '/') :
    (x ++ y).head? ≠ some '/' := by
  cases x with
  | nil => exact hy
  | cons c cs =>
    intro hhead
    obtain rfl : c = '/' := by simpa using hhead
    exact absurd (h '/' List.mem_cons_self) (by decide)

theorem Text.AllBlank.head? (h : AllBlank x) : x.head? ≠ some '/' := by
  simpa using h.head?_append (y := []) (by simp)

variable {indent lineEnd : List Char} (hindent : AllBlank indent) (hend : AllBlank lineEnd)

include hindent hend in
theorem closeless_innerLine {t : List Char} (ht : Closeless t) :
    Closeless (indent ++ CommentStyle.starred.innerLine t ++ lineEnd) := by
  have hstar : Closeless [' ', '*'] := by
    unfold Closeless
    decide
  rw [innerLine_eq, List.append_assoc, List.append_assoc]
  apply hindent.closeless.append
  · split
    · exact hstar.append (by simpa using hend.closeless) (by simpa using hend.head?)
    · apply hstar.append
      · exact Closeless.append ht.space_cons hend.closeless hend.head?
      · simp
  · simp

include hindent in
theorem head?_innerLines (ts : List (List Char)) :
    (ts.map fun t => indent ++ CommentStyle.starred.innerLine t ++ lineEnd).flatten.head? ≠
      some '/' := by
  cases ts with
  | nil => simp
  | cons u us =>
    rw [List.map_cons, List.flatten_cons, List.append_assoc, List.append_assoc]
    apply hindent.head?_append
    rw [innerLine_eq]
    simp

include hindent hend in
/-- The lines of texts that end no comment end none. -/
theorem closeless_innerLines {ts : List (List Char)} (hts : ∀ t ∈ ts, Closeless t) :
    Closeless (ts.map fun t => indent ++ CommentStyle.starred.innerLine t ++ lineEnd).flatten := by
  induction ts with
  | nil => exact closeless_of_notMem List.not_mem_nil
  | cons t ts ih =>
    have hrest := ih fun u hu => hts u (List.mem_cons_of_mem t hu)
    rw [List.map_cons, List.flatten_cons]
    exact (closeless_innerLine hindent hend (hts t List.mem_cons_self)).append hrest
      (head?_innerLines hindent ts)

include hindent hend in
/-- A written block is a comment as a whole: it holds no code, and code follows. -/
theorem code_written {rules : LexicalRules} (hrules : rules.Usual) {parts : BlockParts}
    (hparts : ∀ t ∈ parts.texts, Closeless t) :
    codeFrom rules .code (parts.written indent lineEnd).flatten = [] ∧
      readThrough rules .code (parts.written indent lineEnd).flatten = .code := by
  have hinner : Closeless (['*'] ++ lineEnd ++
      (parts.texts.map fun t => indent ++ CommentStyle.starred.innerLine t ++ lineEnd).flatten ++
        indent ++ [' ', '*']) := by
    have hstar : Closeless ['*'] := by
      unfold Closeless
      decide
    have hlast : Closeless [' ', '*'] := by
      unfold Closeless
      decide
    have hlines := closeless_innerLines hindent hend hparts
    apply Closeless.append _ hlast (by simp)
    apply Closeless.append _ hindent.closeless hindent.head?
    apply Closeless.append _ hlines (head?_innerLines hindent _)
    exact hstar.append hend.closeless hend.head?
  have hshape : (parts.written indent lineEnd).flatten =
      indent ++ ("/*".toList ++ (['*'] ++ lineEnd ++
        (parts.texts.map fun t => indent ++ CommentStyle.starred.innerLine t ++ lineEnd).flatten ++
          indent ++ [' ', '*']) ++ "/".toList) ++ lineEnd := by
    rw [written_eq]
    simp [CommentStyle.starred]
  rw [hshape]
  apply code_comment hrules hindent hend hinner
  rw [List.getLast?_append_of_ne_nil _ (by simp)]
  rfl

end Closeless

section Edit

variable {rules : LexicalRules} {text : List Char} {symbol : Symbol} {entries : List (List Char)}
  {options : BlockOptions} {e : BlockEdit}

/-- The edit stands in code: code goes on where its block starts and where the definition starts,
and no text of the block ends a comment. -/
structure BlockEdit.InCode (rules : LexicalRules) (e : BlockEdit) (text : List Char) : Prop where
  above : readThrough rules .code ((linesWithEnds text).take e.start).flatten = .code
  below : readThrough rules .code ((linesWithEnds text).take e.definition).flatten = .code
  closeless : ∀ t ∈ e.parts.texts, Closeless t

instance (rules : LexicalRules) (e : BlockEdit) (text : List Char) :
    Decidable (e.InCode rules text) :=
  decidable_of_iff
    (readThrough rules .code ((linesWithEnds text).take e.start).flatten = .code ∧
      readThrough rules .code ((linesWithEnds text).take e.definition).flatten = .code ∧
      ∀ t ∈ e.parts.texts, Closeless t)
    ⟨fun h => ⟨h.1, h.2.1, h.2.2⟩, fun h => ⟨h.above, h.below, h.closeless⟩⟩

theorem wholeLines_flatten {ls : List (List Char)} (h : ∀ l ∈ ls, Ended l) :
    WholeLines ls.flatten := by
  rcases List.eq_nil_or_concat' ls with rfl | ⟨front, last, rfl⟩
  · exact Or.inl rfl
  · have hlast := h last (by simp)
    rw [List.flatten_concat, WholeLines, List.getLast?_append_of_ne_nil _ hlast.ne_nil]
    exact Or.inr hlast.getLast?

theorem wholeLines_take (h : blockEdit? text symbol entries options = some e) {n : Nat}
    (hn : n ≤ e.definition) : WholeLines ((linesWithEnds text).take n).flatten :=
  wholeLines_flatten fun _ hl =>
    ended_of_mem_take (Nat.lt_of_le_of_lt hn (BlockEdit.definition_lt h)) hl

theorem wholeLines_block (e : BlockEdit) (text : List Char) : WholeLines (e.block text).flatten := by
  right
  have hend : (lineEndOf text).getLast? = some '\n' := by
    rcases lineEndOf_cases text with h | h <;> rw [h] <;> rfl
  have hne : lineEndOf text ≠ [] := by
    intro hnil
    rw [hnil] at hend
    simp at hend
  rw [BlockEdit.block_eq, written_eq, List.flatten_append, List.flatten_singleton,
    List.getLast?_append_of_ne_nil _ (by simp [hne]), List.getLast?_append_of_ne_nil _ hne]
  exact hend

/-- The code of a text, cut where an edit cuts it. -/
theorem bareCode_eq_of_edit (hrules : rules.Usual)
    (h : blockEdit? text symbol entries options = some e) (hin : e.InCode rules text) :
    bareCode rules text = bareCode rules ((linesWithEnds text).take e.start).flatten ++
      bareCode rules (e.replaced text).flatten ++
      bareCode rules ((linesWithEnds text).drop e.definition).flatten := by
  obtain ⟨-, hstart, -⟩ := blockEdit?_cases h
  have hfront := wholeLines_take h hstart
  have hupper := wholeLines_take h (Nat.le_refl _)
  have hbelow := hin.below
  rw [BlockEdit.take_definition hstart, List.flatten_append] at hbelow hupper
  simp only [bareCode_eq_codeFrom]
  conv_lhs => rw [e.text_eq text hstart]
  rw [codeFrom_append hrules hupper, hbelow, codeFrom_append hrules hfront, hin.above]

/-- An edit takes the code of the lines that it replaces, and adds none. -/
theorem bareCode_apply (hrules : rules.Usual)
    (h : blockEdit? text symbol entries options = some e) (hin : e.InCode rules text) :
    bareCode rules (e.apply text) = bareCode rules ((linesWithEnds text).take e.start).flatten ++
      bareCode rules ((linesWithEnds text).drop e.definition).flatten := by
  obtain ⟨-, hstart, -⟩ := blockEdit?_cases h
  obtain ⟨hnone, hafter⟩ := code_written
    (allBlank_indentOf ((linesWithEnds text)[e.definition]?.getD [])) (allBlank_lineEndOf text)
    hrules hin.closeless
  rw [← BlockEdit.block_eq] at hnone hafter
  simp only [bareCode_eq_codeFrom, BlockEdit.apply, spliceBlock, List.append_assoc]
  rw [codeFrom_append hrules (wholeLines_take h hstart), hin.above,
    codeFrom_append hrules (wholeLines_block e text), hnone, hafter, List.nil_append]

end Edit

section Run

variable {rules : LexicalRules} {options : BlockOptions}

/-- Every edit of the task stands in code. -/
def Task.InCode (rules : LexicalRules) (options : BlockOptions) (text : List Char) (task : Task) :
    Prop :=
  ∀ e ∈ blockEdit? text task.owner task.entries options, e.InCode rules text

instance (rules : LexicalRules) (options : BlockOptions) (text : List Char) (task : Task) :
    Decidable (task.InCode rules options text) :=
  inferInstanceAs (Decidable (∀ e ∈ blockEdit? text task.owner task.entries options,
    e.InCode rules text))

/-- The lines that the task takes away hold no code. -/
def Task.ReplacesNoCode (rules : LexicalRules) (options : BlockOptions) (text : List Char)
    (task : Task) : Prop :=
  ∀ e ∈ blockEdit? text task.owner task.entries options,
    bareCode rules (e.replaced text).flatten = []

instance (rules : LexicalRules) (options : BlockOptions) (text : List Char) (task : Task) :
    Decidable (task.ReplacesNoCode rules options text) :=
  inferInstanceAs (Decidable (∀ e ∈ blockEdit? text task.owner task.entries options,
    bareCode rules (e.replaced text).flatten = []))

/-- A task keeps the code exactly if it takes none away; it never adds code. -/
theorem Task.bareCode_perform (hrules : rules.Usual) {text : List Char} {task : Task}
    (hin : task.InCode rules options text) :
    (bareCode rules (task.perform options text)).length ≤ (bareCode rules text).length ∧
      ((bareCode rules (task.perform options text)).length = (bareCode rules text).length ↔
        task.ReplacesNoCode rules options text) ∧
      (task.ReplacesNoCode rules options text →
        bareCode rules (task.perform options text) = bareCode rules text) := by
  rw [Task.perform_eq, Task.ReplacesNoCode]
  cases h : blockEdit? text task.owner task.entries options with
  | none => simp
  | some e =>
    have hbefore := bareCode_eq_of_edit hrules h (hin e h)
    have hafter := bareCode_apply hrules h (hin e h)
    simp only [Option.mem_some, forall_eq', hbefore, hafter, List.length_append]
    refine ⟨by omega, ?_, fun hnone => by rw [hnone, List.append_nil]⟩
    rw [← List.length_eq_zero_iff]
    omega

/-- Along a run whose edits stand in code, the code is kept exactly if no task takes any away. -/
theorem bareCode_foldl_iff (hrules : rules.Usual) {tasks : List Task} {text : List Char}
    (hin : Along options (Task.InCode rules options) tasks text) :
    (bareCode rules (tasks.foldl (Task.perform options) text)).length ≤
        (bareCode rules text).length ∧
      (bareCode rules (tasks.foldl (Task.perform options) text) = bareCode rules text ↔
        Along options (Task.ReplacesNoCode rules options) tasks text) := by
  induction tasks generalizing text with
  | nil => simp [Along]
  | cons task rest ih =>
    obtain ⟨hle, hsame, hkept⟩ := Task.bareCode_perform hrules hin.1
    obtain ⟨hrest, hiff⟩ := ih hin.2
    rw [List.foldl_cons]
    refine ⟨Nat.le_trans hrest hle, ?_⟩
    constructor
    · intro heq
      have hlen := congrArg List.length heq
      have hnone := hsame.mp (by omega)
      exact ⟨hnone, hiff.mp (heq.trans (hkept hnone).symm)⟩
    · rintro ⟨hnone, hlater⟩
      exact (hiff.mpr hlater).trans (hkept hnone)

/-- Annotating a file whose blocks stand in code keeps its code exactly if the lines that are
replaced hold none. -/
theorem bareCode_annotateText_iff (language : Language) (text : List Char) (file : String)
    (symbols : List Symbol) (options : AnnotateOptions)
    (hin : Along options.block (Task.InCode language.lexicalRules options.block)
      (annotateTasks file symbols options) text) :
    bareCode language.lexicalRules (annotateText text file symbols options).text =
        bareCode language.lexicalRules text ↔
      Along options.block (Task.ReplacesNoCode language.lexicalRules options.block)
        (annotateTasks file symbols options) text := by
  rw [annotateText_text]
  exact (bareCode_foldl_iff (usual_lexicalRules language) hin).2

/-- The definitions of a script, each with one use in another file. -/
def usedOnce (content : String) : List Symbol :=
  (Language.definitions .javascript content "a.js").symbols.map fun s =>
    { s with usages := [⟨"b.js", ⟨2, 0⟩, ⟨⟨2, 0⟩, ⟨2, 1⟩⟩, "f();", .call⟩] }

theorem bareCode_annotateText_comment :
    bareCode Language.javascript.lexicalRules
        (annotateText "/* a */\nfunction f() {}\n".toList "a.js"
          (usedOnce "/* a */\nfunction f() {}\n") {}).text =
      bareCode Language.javascript.lexicalRules "/* a */\nfunction f() {}\n".toList :=
  (bareCode_annotateText_iff .javascript _ _ _ _ (by decide +kernel)).mpr (by decide +kernel)

/-- The line that ends like a comment belongs to a regular expression, and the search for the start
of the comment goes on up to a comment that ended above it. -/
theorem bareCode_annotateText_regex :
    bareCode Language.javascript.lexicalRules
        (annotateText "/* a */\nx = /b*/\nfunction f() {}\n".toList "a.js"
          (usedOnce "/* a */\nx = /b*/\nfunction f() {}\n") {}).text ≠
      bareCode Language.javascript.lexicalRules "/* a */\nx = /b*/\nfunction f() {}\n".toList := by
  decide +kernel

end Run

end Concordance
