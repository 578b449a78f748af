import Concordance.Proofs.Annotate.Run
import Concordance.Proofs.Block.Idempotence
import Concordance.Scanner

/-!
Rounds of scanning and annotating, and when they settle.

A block that a round writes moves the uses below it, so the next round has other entries for them. A
round changes nothing only if no task of it does: what one task writes, a later one does not undo.

Main statements: `upToDate_iff_ownBlock` (when an update has nothing to do), `foldl_perform_eq_self_iff`
(when a run over the tasks of a file has nothing to do) and `rounds_succ_eq_iff`.
-/

namespace Concordance

open Text

section OwnBlock

variable {text : List Char} {symbol : Symbol} {entries : List (List Char)} {options : BlockOptions}

/-- Right above the line stands the block of the parts as it is written for the symbol, and it holds
the entries already. -/
structure OwnBlock (text : List Char) (symbol : Symbol) (entries : List (List Char))
    (options : BlockOptions) (line : Nat) (parts : BlockParts) : Prop where
  above : ∃ front, (linesWithEnds text).take line =
      front ++ parts.written (indentOf ((linesWithEnds text)[line]?.getD [])) (lineEndOf text) ∧
    NoneAbove (hasHashComments symbol.filePath) front.reverse
  formed : parts.Formed
  described : parts.description ≠ []
  holds : parts.Holds symbol entries options
  readsBack : parts.ReadsBack

theorem isSome_blockEdit? (options : BlockOptions) {line : Nat} (hne : entries ≠ [])
    (hfound : definitionLine? (linesWithEnds text) symbol = some line) :
    (blockEdit? text symbol entries options).isSome = true := by
  simp only [blockEdit?, hfound]
  split
  · rfl
  · simp [hne]
  · rfl

/-- With entries to add, an update of a definition changes nothing exactly if the definition has its
own block already. -/
theorem upToDate_iff_ownBlock {line : Nat} (hone : BlockParts.OneLine symbol entries options)
    (hne : entries ≠ []) (hfound : definitionLine? (linesWithEnds text) symbol = some line) :
    UpToDate text symbol entries options ↔
      ∃ parts, OwnBlock text symbol entries options line parts := by
  have hlt : line < (linesWithEnds text).length := (definitionLine?_eq_some_iff.mp hfound).1.1
  have hwritten : ∀ {front : List (List Char)} {parts : BlockParts},
      (linesWithEnds text).take line =
          front ++ parts.written (indentOf ((linesWithEnds text)[line]?.getD [])) (lineEndOf text) →
      NoneAbove (hasHashComments symbol.filePath) front.reverse → parts.Formed →
      parts.description ≠ [] → parts.Holds symbol entries options →
      (UpToDate text symbol entries options ↔ parts.ReadsBack) := by
    intro front parts htake hnone hformed hdescribed hholds
    have hlength : line = front.length +
        (parts.written (indentOf ((linesWithEnds text)[line]?.getD [])) (lineEndOf text)).length := by
      have hlen := congrArg List.length htake
      rwa [List.length_take_of_le (Nat.le_of_lt hlt), List.length_append] at hlen
    have hlines : linesWithEnds text = front ++
        parts.written (indentOf ((linesWithEnds text)[line]?.getD [])) (lineEndOf text) ++
          (linesWithEnds text).drop line := by
      rw [← htake, List.take_append_drop]
    rw [upToDate_of_written_iff entries options hlines hnone (by rw [List.head?_drop])
      (allBlank_lineEndOf text) hformed hdescribed (by rw [hfound, ← hlength]),
      hholds.texts_again_iff hdescribed]
    exact ⟨fun h => ⟨h.1, h.2.2.1, h.2.2.2⟩, fun h => ⟨h.unmarked, rfl, h.trimmed, h.led⟩⟩
  constructor
  · intro hup
    obtain ⟨e, h⟩ := Option.isSome_iff_exists.mp (isSome_blockEdit? options hne hfound)
    obtain ⟨hdef, hstart, hnone, -⟩ := blockEdit?_cases h
    obtain rfl : line = e.definition := Option.some.inj (hfound.symm.trans hdef)
    have htake : (linesWithEnds text).take e.definition =
        (linesWithEnds text).take e.start ++ e.block text := by
      rw [← hup e h]
      exact BlockEdit.take_definition hstart
    have hiff := hwritten htake hnone (BlockEdit.formed h hone) (BlockEdit.description_ne_nil h)
      (BlockEdit.holds h)
    exact ⟨e.parts, ⟨_, htake, hnone⟩, BlockEdit.formed h hone, BlockEdit.description_ne_nil h,
      BlockEdit.holds h, hiff.mp hup⟩
  · rintro ⟨parts, ⟨front, htake, hnone⟩, hformed, hdescribed, hholds, hreads⟩
    exact (hwritten htake hnone hformed hdescribed hholds).mpr hreads

end OwnBlock

section Run

variable {text : List Char} {options : BlockOptions}

/-- The definition stands on the line where it was recorded, which is no line comment, and none of
the lines with the numbers is taken away. -/
structure BlockEdit.InPlace (e : BlockEdit) (text : List Char) (symbol : Symbol)
    (lines : List Nat) : Prop where
  recorded : e.definition = symbol.position.line
  code : (lineCommentBody? (hasHashComments symbol.filePath)
    ((linesWithEnds text)[e.definition]?.getD [])).isSome = false
  apart : ∀ n ∈ lines, n < e.start ∨ e.definition ≤ n

/-- What the task writes are whole lines, and its edit is in place. -/
structure Task.InPlace (options : BlockOptions) (lines : List Nat) (text : List Char)
    (task : Task) : Prop where
  oneLine : BlockParts.OneLine task.owner task.entries options
  edit : ∀ e ∈ blockEdit? text task.owner task.entries options, e.InPlace text task.owner lines

instance (e : BlockEdit) (text : List Char) (symbol : Symbol) (lines : List Nat) :
    Decidable (e.InPlace text symbol lines) :=
  decidable_of_iff
    (e.definition = symbol.position.line ∧
      (lineCommentBody? (hasHashComments symbol.filePath)
        ((linesWithEnds text)[e.definition]?.getD [])).isSome = false ∧
      ∀ n ∈ lines, n < e.start ∨ e.definition ≤ n)
    ⟨fun h => ⟨h.1, h.2.1, h.2.2⟩, fun h => ⟨h.recorded, h.code, h.apart⟩⟩

instance (options : BlockOptions) (lines : List Nat) (text : List Char) (task : Task) :
    Decidable (task.InPlace options lines text) :=
  decidable_of_iff
    (BlockParts.OneLine task.owner task.entries options ∧
      ∀ e ∈ blockEdit? text task.owner task.entries options, e.InPlace text task.owner lines)
    ⟨fun h => ⟨h.1, h.2⟩, fun h => ⟨h.oneLine, h.edit⟩⟩

/-- An edit that leads to a text with the same lines down to the definition writes what it takes
away. -/
theorem BlockEdit.idle_of_lines {symbol : Symbol} {entries : List (List Char)} {e : BlockEdit}
    (h : blockEdit? text symbol entries options = some e)
    (hone : BlockParts.OneLine symbol entries options) {lines : List Nat}
    (hplace : e.InPlace text symbol lines)
    (hsame : (linesWithEnds (e.apply text)).take (e.definition + 1) =
      (linesWithEnds text).take (e.definition + 1)) : e.Idle text := by
  obtain ⟨hdef, hstart, -, blocks, hwhole, hreplaced, -⟩ := blockEdit?_cases h
  have hlt := BlockEdit.definition_lt h
  have hcode := (definitionLine?_eq_some_iff.mp hdef).1.not_commentLine
  have hline : (linesWithEnds text)[e.definition]? =
      some ((linesWithEnds text)[e.definition]?.getD []) := by
    rw [List.getElem?_eq_getElem hlt, Option.getD_some]
  have hafter : linesWithEnds (e.apply text) = (linesWithEnds text).take e.start ++ (e.block text ++
      (linesWithEnds text)[e.definition]?.getD [] :: (linesWithEnds text).drop (e.definition + 1)) := by
    rw [BlockEdit.lines_after h hone, List.append_assoc, List.drop_eq_getElem_cons hlt,
      List.getElem?_eq_getElem hlt, Option.getD_some]
  have hbefore : linesWithEnds (e.apply text) = (linesWithEnds text).take e.start ++
      (e.replaced text ++ (linesWithEnds text)[e.definition]?.getD [] ::
        (linesWithEnds (e.apply text)).drop (e.definition + 1)) := by
    conv_lhs => rw [← List.take_append_drop (e.definition + 1) (linesWithEnds (e.apply text)), hsame,
      List.take_add_one, hline, BlockEdit.take_definition hstart]
    simp
  have hbelow := List.append_cancel_left (hafter.symm.trans hbefore)
  rw [hreplaced, BlockEdit.block_eq] at hbelow
  rw [BlockEdit.Idle, hreplaced]
  exact flatMap_lines_eq_written (fun b hb => (hwhole b hb).shaped) hplace.code hcode
    (allBlank_indentOf _) (allBlank_lineEndOf text) hbelow

/-- Tasks that go upwards and lead from one text to another with the same lines down to the first of
them change nothing: the last task to write would be seen in the result. -/
theorem upToDate_of_foldl_eq {target : List Char} {lines : List Nat} {tasks : List Task} {bound : Nat}
    (hup : tasks.Pairwise fun a b => b.line < a.line) (hlines : ∀ task ∈ tasks, task.line ∈ lines)
    (hbound : ∀ task ∈ tasks, task.line < bound)
    (hsame : (linesWithEnds text).take bound = (linesWithEnds target).take bound)
    (hplace : Along options (Task.InPlace options lines) tasks text)
    (htarget : tasks.foldl (Task.perform options) text = target) :
    text = target ∧ ∀ task ∈ tasks, UpToDate text task.owner task.entries options := by
  induction tasks generalizing text bound with
  | nil => exact ⟨htarget, by simp⟩
  | cons task rest ih =>
    obtain ⟨habove, hup⟩ := List.pairwise_cons.mp hup
    obtain ⟨hline, hlines⟩ := List.forall_mem_cons.mp hlines
    obtain ⟨hlow, hbound⟩ := List.forall_mem_cons.mp hbound
    obtain ⟨hhere, hplace⟩ := hplace
    rw [List.foldl_cons] at htarget
    rw [Task.perform_eq] at htarget hplace
    cases h : blockEdit? text task.owner task.entries options with
    | none =>
      rw [h] at htarget hplace
      obtain ⟨heq, hrest⟩ := ih hup hlines hbound hsame hplace htarget
      exact ⟨heq, List.forall_mem_cons.mpr ⟨by simp [UpToDate, h], hrest⟩⟩
    | some e =>
      rw [h] at htarget hplace
      obtain ⟨-, hstart, -⟩ := blockEdit?_cases h
      have hedit := hhere.edit e h
      have hdefinition : e.definition = task.line := hedit.recorded
      -- the tasks to come stand above the edit, so they do not see it
      have hbelow : ∀ later ∈ rest, later.line < e.start := by
        intro later hlater
        have := habove later hlater
        have := hedit.apart later.line (hlines later hlater)
        omega
      have hfront : (linesWithEnds (e.apply text)).take e.start =
          (linesWithEnds target).take e.start := by
        rw [BlockEdit.lines_after h hhere.oneLine, List.append_assoc,
          List.take_left' (BlockEdit.length_front h)]
        have hle : e.start ≤ bound := by omega
        rw [← Nat.min_eq_left hle, ← List.take_take, hsame, List.take_take]
      obtain ⟨heq, hrest⟩ := ih hup hlines hbelow hfront hplace htarget
      have hidle : e.Idle text := by
        apply BlockEdit.idle_of_lines h hhere.oneLine hedit
        have hle : e.definition + 1 ≤ bound := by omega
        rw [heq, ← Nat.min_eq_left hle, ← List.take_take, ← hsame, List.take_take]
      have hself : e.apply text = text :=
        (BlockEdit.apply_eq_self_iff (BlockEdit.ended_block h hhere.oneLine) hstart
          (BlockEdit.definition_lt h)).mpr hidle
      rw [hself] at heq hrest
      refine ⟨heq, List.forall_mem_cons.mpr ⟨?_, hrest⟩⟩
      intro e' he'
      obtain rfl : e = e' := Option.some.inj (h.symm.trans he')
      exact hidle

/-- A run upwards over tasks that are in place keeps the text exactly if each of them has nothing to
do. -/
theorem foldl_perform_eq_self_iff {tasks : List Task}
    (hup : tasks.Pairwise fun a b => b.line < a.line)
    (hplace : Along options (Task.InPlace options (tasks.map Task.line)) tasks text) :
    tasks.foldl (Task.perform options) text = text ↔
      ∀ task ∈ tasks, UpToDate text task.owner task.entries options := by
  constructor
  · intro heq
    obtain ⟨bound, hbound⟩ : ∃ bound, ∀ task ∈ tasks, task.line < bound := by
      cases tasks with
      | nil => exact ⟨0, by simp⟩
      | cons first rest =>
        refine ⟨first.line + 1, List.forall_mem_cons.mpr ⟨Nat.lt_succ_self _, ?_⟩⟩
        exact fun task htask => Nat.lt_succ_of_lt ((List.pairwise_cons.mp hup).1 task htask)
    exact (upToDate_of_foldl_eq hup (fun task => List.mem_map_of_mem) hbound rfl hplace heq).2
  · intro hall
    have hone : ∀ task ∈ tasks, BlockParts.OneLine task.owner task.entries options :=
      hplace.forall_mem fun _ _ h => h.oneLine
    clear hup hplace
    induction tasks with
    | nil => rfl
    | cons task rest ih =>
      obtain ⟨hhere, hall⟩ := List.forall_mem_cons.mp hall
      obtain ⟨honeLine, hone⟩ := List.forall_mem_cons.mp hone
      have hself : task.perform options text = text :=
        (updateBlock_text_eq_self_iff honeLine).mpr hhere
      rw [List.foldl_cons, hself]
      exact ih hall hone

end Run

section Rounds

/-- The definitions that a scan of the files from scratch finds, with their uses. -/
def scannedSymbols (files : List SourceFile) (now : Int) : List Symbol :=
  (Scanner.withDefaults.processBatch files .deep now 0).2.symbols

/-- The file with its definitions annotated. -/
def SourceFile.annotated (file : SourceFile) (symbols : List Symbol) (options : AnnotateOptions) :
    SourceFile :=
  { file with
    content := String.ofList (annotateText file.content.toList file.path symbols options).text }

/-- The files after so many rounds, each of which scans all files from scratch and then annotates
each of them. -/
def rounds (options : AnnotateOptions) (clock : Nat → Int) (files : List SourceFile) :
    Nat → List SourceFile
  | 0 => files
  | n + 1 =>
    let current := rounds options clock files n
    current.map (·.annotated (scannedSymbols current (clock n)) options)

/-- The tasks for a file in the round with the number. -/
def roundTasks (options : AnnotateOptions) (clock : Nat → Int) (files : List SourceFile) (n : Nat)
    (file : SourceFile) : List Task :=
  annotateTasks file.path (scannedSymbols (rounds options clock files n) (clock n)) options

theorem annotated_eq_self_iff (file : SourceFile) (symbols : List Symbol)
    (options : AnnotateOptions) :
    file.annotated symbols options = file ↔
      (annotateTasks file.path symbols options).foldl (Task.perform options.block)
        file.content.toList = file.content.toList := by
  rw [← annotateText_text]
  cases file with
  | mk path content =>
    simp only [SourceFile.annotated, SourceFile.mk.injEq, true_and]
    constructor
    · intro h
      conv_rhs => rw [← h]
      rw [String.toList_ofList]
    · intro h
      rw [h, String.ofList_toList]

/-- A round whose tasks are all in place changes no file exactly if every definition with entries
that is found has its own block already, with those entries in it. -/
theorem rounds_succ_eq_iff (options : AnnotateOptions) (clock : Nat → Int)
    (files : List SourceFile) (n : Nat)
    (hplace : ∀ file ∈ rounds options clock files n,
      Along options.block
        (Task.InPlace options.block ((roundTasks options clock files n file).map Task.line))
        (roundTasks options clock files n file) file.content.toList) :
    rounds options clock files (n + 1) = rounds options clock files n ↔
      ∀ file ∈ rounds options clock files n, ∀ task ∈ roundTasks options clock files n file,
        ∀ line, definitionLine? (linesWithEnds file.content.toList) task.owner = some line →
          ∃ parts, OwnBlock file.content.toList task.owner task.entries options.block line parts := by
  have hround : rounds options clock files (n + 1) = rounds options clock files n ↔
      ∀ file ∈ rounds options clock files n,
        file.annotated (scannedSymbols (rounds options clock files n) (clock n)) options = file := by
    rw [rounds]
    conv_lhs => rhs; rw [← List.map_id (rounds options clock files n)]
    exact List.map_inj_left
  rw [hround]
  refine forall_congr' fun file => forall_congr' fun hfile => ?_
  have hone := (hplace file hfile).forall_mem fun _ _ h => h.oneLine
  rw [annotated_eq_self_iff, foldl_perform_eq_self_iff (pairwise_annotateTasks _ _ _)
    (hplace file hfile)]
  refine forall_congr' fun task => forall_congr' fun htask => ?_
  have hne := entries_ne_nil_of_mem_annotateTasks htask
  cases hfound : definitionLine? (linesWithEnds file.content.toList) task.owner with
  | none => simp [UpToDate, blockEdit?, hfound]
  | some line =>
    rw [upToDate_iff_ownBlock (hone task htask) hne hfound]
    simp

/-- A block that lists uses of the function `f` on the lines. -/
def listing (lines : List Nat) : BlockParts where
  description := ["Function f".toList]
  entries := lines.map fun n => (Entry.mk "a.js".toList [n] (some "call".toList)).render

/-- A function with the block above it and a use of it below. -/
def usedBelow (block : List (List Char)) : List Char :=
  block.flatten ++ "function f() {}\nf();\n".toList

/-- The function with a block that lists the lines. -/
def usedBelowListing (lines : List Nat) : List Char :=
  usedBelow ((listing lines).written [] ['\n'])

/-- The text as the only file. -/
def onlyFile (text : List Char) : SourceFile where
  path := "a.js"
  content := String.ofList text

theorem rounds_succ_eq_listed :
    rounds {} (fun _ => 0) [onlyFile (usedBelowListing [7])] 1 =
        rounds {} (fun _ => 0) [onlyFile (usedBelowListing [7])] 0 ∧
      ∀ file ∈ rounds {} (fun _ => 0) [onlyFile (usedBelowListing [7])] 0,
        ∀ task ∈ roundTasks {} (fun _ => 0) [onlyFile (usedBelowListing [7])] 0 file,
          ∀ line, definitionLine? (linesWithEnds file.content.toList) task.owner = some line →
            ∃ parts, OwnBlock file.content.toList task.owner task.entries {} line parts := by
  have hsame : rounds {} (fun _ => 0) [onlyFile (usedBelowListing [7])] 1 =
      rounds {} (fun _ => 0) [onlyFile (usedBelowListing [7])] 0 := by decide +kernel
  exact ⟨hsame, (rounds_succ_eq_iff {} (fun _ => 0) [onlyFile (usedBelowListing [7])] 0
    (by decide +kernel)).mp hsame⟩

section Ungrouped

/-- One entry for each use. -/
def ungrouped : AnnotateOptions where
  entries := { groupByFile := false }
  block := { groupByFile := false }

/-- The task for the function below a block of the lines, on the line with the number. -/
def listingTask (lines : List Nat) (n : Nat) : Task where
  owner :=
    { Symbol.define "f" .function "a.js" ⟨n, 9⟩ ⟨⟨n, 9⟩, ⟨n, 15⟩⟩ with
      documentation := some (String.ofList (List.intercalate ['\n'] (listing lines).texts))
      usages := [⟨"a.js", ⟨n + 1, 0⟩, ⟨⟨n + 1, 0⟩, ⟨n + 1, 1⟩⟩, "f();", .call⟩] }
  entries := (listing [n + 2]).entries

/-- A further line goes to the end of the list if the entries are in order then. -/
theorem mergeExact_listing (lines : List Nat) (n : Nat)
    (hclean : Entry.cleaned (listing (lines ++ [n])).entries = (listing (lines ++ [n])).entries)
    (hsorted : (listing (lines ++ [n])).entries.Pairwise fun a b =>
      (Entry.sortKey a).upTo (Entry.sortKey b) = true ∧ a ≠ b) :
    Entry.mergeExact ((listing lines).entries ++ (listing [n]).entries) =
      (listing (lines ++ [n])).entries := by
  have happend : (listing (lines ++ [n])).entries =
      (listing lines).entries ++ (listing [n]).entries := List.map_append
  rw [← happend]
  exact Entry.mergeExact_eq_of_sorted hsorted fun t => by rw [hclean]

/-- A round adds the line of the use to those that the block lists. -/
theorem annotated_ungrouped (lines : List Nat) (n : Nat)
    (htasks : annotateTasks "a.js" (scannedSymbols [onlyFile (usedBelowListing lines)] 0) ungrouped =
      [listingTask lines n])
    (hfound : definitionLine? (linesWithEnds (usedBelowListing lines)) (listingTask lines n).owner =
      some n)
    (habove : blocksAbove false (linesWithEnds (usedBelowListing lines)) n =
      .found [⟨(listing lines).written [] ['\n'], false⟩])
    (hread : BlockParts.ofBlocks [CommentBlock.body false
      ⟨(listing lines).written [] ['\n'], false⟩] = listing lines)
    (hmerge : Entry.mergeExact ((listing lines).entries ++ (listing [n + 2]).entries) =
      (listing (lines ++ [n + 2])).entries)
    (htext : BlockEdit.apply ⟨n - ((listing lines).written [] ['\n']).length, n,
        listing (lines ++ [n + 2])⟩ (usedBelowListing lines) =
      usedBelowListing (lines ++ [n + 2])) :
    (onlyFile (usedBelowListing lines)).annotated
        (scannedSymbols [onlyFile (usedBelowListing lines)] 0) ungrouped =
      onlyFile (usedBelowListing (lines ++ [n + 2])) := by
  have hhash : hasHashComments (listingTask lines n).owner.filePath = false := by
    show hasHashComments "a.js" = false
    decide +kernel
  have hupdated : (listing lines).updated (listingTask lines n).owner
      (listingTask lines n).entries ungrouped.block = listing (lines ++ [n + 2]) := by
    unfold BlockParts.updated
    exact congrArg (fun entries => BlockParts.mk _ _ entries _) hmerge
  have hedit : blockEdit? (usedBelowListing lines) (listingTask lines n).owner
      (listingTask lines n).entries ungrouped.block =
        some ⟨n - ((listing lines).written [] ['\n']).length, n, listing (lines ++ [n + 2])⟩ := by
    simp only [blockEdit?, hfound, hhash, habove, List.map_cons, List.map_nil, hread, hupdated,
      List.flatMap_cons, List.flatMap_nil, List.append_nil]
  have hcontent : (onlyFile (usedBelowListing lines)).content.toList = usedBelowListing lines :=
    String.toList_ofList
  have hpath : (onlyFile (usedBelowListing lines)).path = "a.js" := rfl
  rw [SourceFile.annotated, annotateText_text, hcontent, hpath, htasks, List.foldl_cons,
    List.foldl_nil, Task.perform_eq, hedit]
  simp only [htext]
  rfl

/-- The line that a use had before the block moved it stays listed, so the block grows and moves the
use again. -/
theorem rounds_ungrouped_ne :
    rounds ungrouped (fun _ => 0) [onlyFile (usedBelow [])] 3 ≠
      rounds ungrouped (fun _ => 0) [onlyFile (usedBelow [])] 2 := by
  have hfirst : (onlyFile (usedBelow [])).annotated (scannedSymbols [onlyFile (usedBelow [])] 0)
      ungrouped = onlyFile (usedBelowListing [2]) := by decide +kernel
  have hsecond := annotated_ungrouped [2] 5 (by decide +kernel) (by decide +kernel)
    (by decide +kernel) (by decide +kernel)
    (mergeExact_listing [2] 7 (by decide +kernel) (by decide +kernel)) (by decide +kernel)
  have hthird := annotated_ungrouped [2, 7] 6 (by decide +kernel) (by decide +kernel)
    (by decide +kernel) (by decide +kernel)
    (mergeExact_listing [2, 7] 8 (by decide +kernel) (by decide +kernel)) (by decide +kernel)
  simp only [rounds, List.map_cons, List.map_nil, hfirst, hsecond, List.cons_append,
    List.nil_append, hthird]
  decide +kernel

end Ungrouped

end Rounds

end Concordance
