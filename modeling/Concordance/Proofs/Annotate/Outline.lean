import Concordance.Proofs.Annotate.Code
import Concordance.Proofs.Annotate.Settled
import Concordance.Proofs.Definition.Kept
import Concordance.Proofs.Definition.Rules

/-!
What annotating does to the definitions of a file.

A block of comment lines is put above the line on which the name of a definition stands. The head of a
definition may start on a line above that one, and then the block falls inside the head: the patterns for
heads pass over white space and line ends, but not over comments, and the head of a rule is read with the
comments in it.

Main statements: `Language.definitions_move` (lines without code that stand inside no head change no
definition) and `map_outline_annotated` (a file whose blocks stand inside no head defines the same after
it is annotated).
-/

namespace Concordance

open Text

namespace Language

/-- No head of a definition reaches over the cut. -/
def Unbroken : Language → SourceText → Nat → Prop
  | .php => Php.Unbroken
  | .javascript => JavaScript.Unbroken
  | .css => Stylesheet.Unbroken

instance (language : Language) (s : SourceText) (cut : Nat) :
    Decidable (language.Unbroken s cut) :=
  match language with
  | .php => inferInstanceAs (Decidable (Php.Unbroken s cut))
  | .javascript => inferInstanceAs (Decidable (JavaScript.Unbroken s cut))
  | .css => inferInstanceAs (Decidable (Stylesheet.Unbroken s cut))

/-- The heads after which a block is looked for stand in no literal. In a stylesheet blocks are met in the
code itself. -/
def HeadsInCode : Language → SourceText → Prop
  | .php => Php.HeadsInCode
  | .javascript => JavaScript.HeadsInCode
  | .css => fun _ => True

instance (language : Language) (s : SourceText) : Decidable (language.HeadsInCode s) :=
  match language with
  | .php => inferInstanceAs (Decidable (Php.HeadsInCode s))
  | .javascript => inferInstanceAs (Decidable (JavaScript.HeadsInCode s))
  | .css => inferInstanceAs (Decidable True)

/-- A change of lines inside no head keeps what the definitions are known by. -/
theorem definitions_move (language : Language) {e : Change language.lexicalRules}
    (h : e.Clear language.Unbroken) (hcode : language.HeadsInCode e.before) {content content' : String}
    (hbefore : language.source content = e.before) (hafter : language.source content' = e.after)
    (path : String) :
    (language.definitions content' path).symbols.map Symbol.outline =
      (language.definitions content path).symbols.map Symbol.outline := by
  unfold definitions
  rw [hbefore, hafter]
  cases language with
  | php => exact Change.map_outline_eq (Php.definitions_move h hcode path)
  | javascript => exact Change.map_outline_eq (JavaScript.definitions_move h hcode path)
  | css => exact Change.map_outline_eq (Stylesheet.definitions_move h path)

end Language

section Edit

variable {rules : LexicalRules} {text : List Char} {symbol : Symbol} {entries : List (List Char)}
  {options : BlockOptions} {e : BlockEdit}

/-- The byte where the block of the edit starts. -/
def BlockEdit.place (e : BlockEdit) (text : List Char) : Nat :=
  byteLength ((linesWithEnds text).take e.start).flatten

/-- The lines that an edit in code takes away, if they hold no code. -/
theorem BlockEdit.quiet_replaced (hrules : rules.Usual)
    (h : blockEdit? text symbol entries options = some e) (hin : e.InCode rules text)
    (hnone : bareCode rules (e.replaced text).flatten = []) :
    Quiet rules (e.replaced text).flatten := by
  obtain ⟨-, hstart, -⟩ := blockEdit?_cases h
  refine ⟨wholeLines_flatten fun line hline => ?_, ?_, ?_⟩
  · exact ended_of_mem_take (definition_lt h) (List.mem_of_mem_drop hline)
  · have hbelow := hin.below
    rwa [take_definition hstart, List.flatten_append,
      readThrough_append hrules (wholeLines_take h hstart), hin.above] at hbelow
  · rwa [← bareCode_eq_codeFrom]

theorem BlockEdit.quiet_block (hrules : rules.Usual) (hin : e.InCode rules text) :
    Quiet rules (e.block text).flatten := by
  obtain ⟨hbare, hread⟩ := code_written
    (allBlank_indentOf ((linesWithEnds text)[e.definition]?.getD [])) (allBlank_lineEndOf text)
    hrules hin.closeless
  rw [← BlockEdit.block_eq] at hbare hread
  exact ⟨wholeLines_block e text, hread, hbare⟩

/-- The edit as a change of lines without code. -/
def BlockEdit.change (e : BlockEdit) (hrules : rules.Usual)
    (h : blockEdit? text symbol entries options = some e) (hin : e.InCode rules text)
    (hnone : bareCode rules (e.replaced text).flatten = []) : Change rules where
  front := ((linesWithEnds text).take e.start).flatten
  old := (e.replaced text).flatten
  new := (e.block text).flatten
  back := ((linesWithEnds text).drop e.definition).flatten
  usual := hrules
  whole := wholeLines_take h (blockEdit?_cases h).2.1
  read := hin.above
  old_quiet := quiet_replaced hrules h hin hnone
  new_quiet := quiet_block hrules hin

theorem BlockEdit.before_change (hrules : rules.Usual)
    (h : blockEdit? text symbol entries options = some e) (hin : e.InCode rules text)
    (hnone : bareCode rules (e.replaced text).flatten = []) :
    (e.change hrules h hin hnone).before = .ofChars rules text := by
  have htext := e.text_eq text (blockEdit?_cases h).2.1
  rw [List.append_assoc] at htext
  exact congrArg (SourceText.ofChars rules) htext.symm

theorem BlockEdit.after_change (hrules : rules.Usual)
    (h : blockEdit? text symbol entries options = some e) (hin : e.InCode rules text)
    (hnone : bareCode rules (e.replaced text).flatten = []) :
    (e.change hrules h hin hnone).after = .ofChars rules (e.apply text) :=
  congrArg (SourceText.ofChars rules) (List.append_assoc ..).symm

end Edit

section Run

variable {language : Language} {options : BlockOptions}

/-- The edit leaves the heads of definitions whole: it stands in code and takes none away, and neither
the lines that it takes away nor those that it writes start or end inside a head. -/
structure BlockEdit.SparesHeads (language : Language) (e : BlockEdit) (text : List Char) : Prop where
  inCode : e.InCode language.lexicalRules text
  noCode : bareCode language.lexicalRules (e.replaced text).flatten = []
  heads : language.HeadsInCode (.ofChars language.lexicalRules text)
  before : ∀ cut ∈ [e.place text, e.place text + byteLength (e.replaced text).flatten],
    language.Unbroken (.ofChars language.lexicalRules text) cut
  after : ∀ cut ∈ [e.place text, e.place text + byteLength (e.block text).flatten],
    language.Unbroken (.ofChars language.lexicalRules (e.apply text)) cut

instance (language : Language) (e : BlockEdit) (text : List Char) :
    Decidable (e.SparesHeads language text) :=
  decidable_of_iff (_ ∧ _ ∧ _ ∧ _ ∧ _)
    ⟨fun h => ⟨h.1, h.2.1, h.2.2.1, h.2.2.2.1, h.2.2.2.2⟩,
      fun h => ⟨h.inCode, h.noCode, h.heads, h.before, h.after⟩⟩

/-- Every edit of the task leaves the heads of definitions whole. -/
def Task.SparesHeads (language : Language) (options : BlockOptions) (text : List Char) (task : Task) :
    Prop :=
  ∀ e ∈ blockEdit? text task.owner task.entries options, e.SparesHeads language text

instance (language : Language) (options : BlockOptions) (text : List Char) (task : Task) :
    Decidable (task.SparesHeads language options text) :=
  inferInstanceAs (Decidable (∀ e ∈ blockEdit? text task.owner task.entries options,
    e.SparesHeads language text))

/-- A task that leaves the heads whole keeps what the definitions are known by. -/
theorem Task.map_outline_perform {text : List Char} {task : Task}
    (h : task.SparesHeads language options text) (path : String) :
    (language.definitions (String.ofList (task.perform options text)) path).symbols.map
        Symbol.outline =
      (language.definitions (String.ofList text) path).symbols.map Symbol.outline := by
  rw [Task.perform_eq]
  cases hedit : blockEdit? text task.owner task.entries options with
  | none => rfl
  | some e =>
    obtain ⟨hin, hnone, hheads, hbefore, hafter⟩ := h e hedit
    have hrules := usual_lexicalRules language
    have htext := e.before_change hrules hedit hin hnone
    have htext' := e.after_change hrules hedit hin hnone
    refine language.definitions_move (e := e.change hrules hedit hin hnone) ?_ (htext ▸ hheads)
      ?_ ?_ path
    · constructor
      · exact htext ▸ hbefore _ (by simp [Change.start, BlockEdit.change, BlockEdit.place])
      · exact htext ▸ hbefore _ (by simp [Change.stop, BlockEdit.change, BlockEdit.place])
      · exact htext' ▸ hafter _ (by simp [Change.start, BlockEdit.change, BlockEdit.place])
      · exact htext' ▸ hafter _ (by simp [Change.stop, Change.swap, BlockEdit.change, BlockEdit.place])
    · rw [Language.source, String.toList_ofList, htext]
    · rw [Language.source, String.toList_ofList, htext']

/-- Along a run whose blocks stand inside no head, what the definitions are known by is kept. -/
theorem map_outline_foldl {tasks : List Task} {text : List Char}
    (h : Along options (Task.SparesHeads language options) tasks text) (path : String) :
    (language.definitions (String.ofList (tasks.foldl (Task.perform options) text)) path).symbols.map
        Symbol.outline =
      (language.definitions (String.ofList text) path).symbols.map Symbol.outline := by
  induction tasks generalizing text with
  | nil => rfl
  | cons task tasks ih =>
    rw [List.foldl_cons, ih h.2]
    exact Task.map_outline_perform h.1 path

/-- A file whose blocks stand inside no head defines the same after it is annotated: the same names, of
the same kinds and in the same containers, in the same order. -/
theorem map_outline_annotated (language : Language) (file : SourceFile) (symbols : List Symbol)
    (options : AnnotateOptions)
    (h : Along options.block (Task.SparesHeads language options.block)
      (annotateTasks file.path symbols options) file.content.toList) :
    (language.definitions (file.annotated symbols options).content file.path).symbols.map
        Symbol.outline =
      (language.definitions file.content file.path).symbols.map Symbol.outline := by
  have hkept := map_outline_foldl h file.path
  rw [← annotateText_text, String.ofList_toList] at hkept
  exact hkept

/-- A function below a comment, and a call of it. -/
def commentedFunction : SourceFile :=
  onlyFile "/* first */\nfunction f() {}\nf();\n".toList

theorem map_outline_annotated_commentedFunction :
    (Language.javascript.definitions
        (commentedFunction.annotated (scannedSymbols [commentedFunction] 0) {}).content
        commentedFunction.path).symbols.map Symbol.outline =
      (Language.javascript.definitions commentedFunction.content
        commentedFunction.path).symbols.map Symbol.outline :=
  map_outline_annotated .javascript commentedFunction (scannedSymbols [commentedFunction] 0) {}
    (by decide +kernel)

/-- A function whose name stands below its keyword, and a call of it. -/
def splitFunction : SourceFile :=
  onlyFile "function\nf() {}\nf();\n".toList

/-- The block falls between the keyword and the name, and the function is not found any more. -/
theorem map_outline_annotated_splitFunction :
    (Language.javascript.definitions splitFunction.content
        splitFunction.path).symbols.map Symbol.outline = [("f", .function, none)] ∧
      (Language.javascript.definitions
        (splitFunction.annotated (scannedSymbols [splitFunction] 0) {}).content
        splitFunction.path).symbols.map Symbol.outline = [] := by
  decide +kernel

end Run

end Concordance
