import Concordance.Annotate
import Concordance.Proofs.Block.Edit

/-!
Annotating a file as a run of updates over a list of tasks that is fixed before the run starts.

Main statements: `annotateText_text` (the text of the run is the fold of the updates) and
`pairwise_annotateTasks` (the tasks go upwards). `Along` states what holds at every update of the
run.
-/

namespace Concordance

open Text

/-- A definition whose block is brought up to date, and the entries that it gets. -/
structure Task where
  owner : Symbol
  entries : List (List Char)
deriving Repr, DecidableEq

/-- The task for the definitions on a line, if they have entries. -/
def lineTask? (symbols : List Symbol) (options : EntryOptions) (line : Nat) : Option Task :=
  match lineOwner? (symbols.filter (·.position.line == line)) with
  | none => none
  | some owner =>
    if (owner.entries options).isEmpty then none else some ⟨owner, owner.entries options⟩

/-- The tasks for a file, the lowest definition first. -/
def annotateTasks (file : String) (symbols : List Symbol) (options : AnnotateOptions) : List Task :=
  if (CommentStyle.ofPath? file).isSome then
    let own := symbols.filter (·.filePath == file)
    (definitionLines own).filterMap (lineTask? own options.entries)
  else []

/-- The text after a task. -/
def Task.perform (options : BlockOptions) (text : List Char) (task : Task) : List Char :=
  (updateBlock text task.owner task.entries .starred options).text

theorem Task.perform_eq (options : BlockOptions) (text : List Char) (task : Task) :
    task.perform options text =
      match blockEdit? text task.owner task.entries options with
      | none => text
      | some e => e.apply text :=
  updateBlock_text text task.owner task.entries options

/-- The property holds at every task of the run, each with the text that the task starts from. -/
def Along (options : BlockOptions) (P : List Char → Task → Prop) : List Task → List Char → Prop
  | [], _ => True
  | task :: rest, text => P text task ∧ Along options P rest (task.perform options text)

instance Along.decidable (options : BlockOptions) (P : List Char → Task → Prop)
    [∀ text task, Decidable (P text task)] :
    ∀ (tasks : List Task) (text : List Char), Decidable (Along options P tasks text)
  | [], _ => inferInstanceAs (Decidable True)
  | task :: rest, text =>
    have := Along.decidable options P rest (task.perform options text)
    inferInstanceAs (Decidable (P text task ∧ Along options P rest (task.perform options text)))

theorem Along.forall_mem {options : BlockOptions} {P : List Char → Task → Prop} {Q : Task → Prop}
    (hPQ : ∀ text task, P text task → Q task) {tasks : List Task} {text : List Char}
    (h : Along options P tasks text) : ∀ task ∈ tasks, Q task := by
  induction tasks generalizing text with
  | nil => simp
  | cons task rest ih => exact List.forall_mem_cons.mpr ⟨hPQ text task h.1, ih h.2⟩

theorem ofPath?_eq_starred {file : String} {style : CommentStyle}
    (h : CommentStyle.ofPath? file = some style) : style = .starred := by
  obtain ⟨extension, -, hstyle⟩ := Option.bind_eq_some_iff.mp h
  unfold CommentStyle.ofExtension? at hstyle
  dsimp only at hstyle
  split at hstyle
  · exact (Option.some.inj hstyle).symm
  · cases hstyle

theorem annotateLine_text (symbols : List Symbol) (options : AnnotateOptions) (state : Update)
    (line : Nat) :
    (annotateLine symbols .starred options state line).text =
      match lineTask? symbols options.entries line with
      | none => state.text
      | some task => task.perform options.block state.text := by
  unfold annotateLine lineTask?
  cases lineOwner? (symbols.filter (·.position.line == line)) with
  | none => rfl
  | some owner =>
    dsimp only
    split <;> rfl

/-- The text of an annotated file is the fold of the updates over the tasks. -/
theorem annotateText_text (text : List Char) (file : String) (symbols : List Symbol)
    (options : AnnotateOptions) :
    (annotateText text file symbols options).text =
      (annotateTasks file symbols options).foldl (Task.perform options.block) text := by
  have hfold : ∀ (own : List Symbol) (ls : List Nat) (state : Update),
      (ls.foldl (annotateLine own .starred options) state).text =
        (ls.filterMap (lineTask? own options.entries)).foldl (Task.perform options.block)
          state.text := by
    intro own ls
    induction ls with
    | nil => exact fun state => rfl
    | cons line ls ih =>
      intro state
      rw [List.foldl_cons, ih, annotateLine_text]
      cases htask : lineTask? own options.entries line with
      | none => simp [htask]
      | some task => simp [htask]
  unfold annotateText annotateTasks
  cases hstyle : CommentStyle.ofPath? file with
  | none => rfl
  | some style =>
    obtain rfl := ofPath?_eq_starred hstyle
    exact hfold _ _ ⟨text, []⟩

section Lines

/-- The line where the definition of the task was recorded. -/
def Task.line (task : Task) : Nat :=
  task.owner.position.line

theorem pairwise_definitionLines (symbols : List Symbol) :
    (definitionLines symbols).Pairwise fun a b => b < a := by
  generalize hlines : firstPerKey id [] (symbols.map (·.position.line)) = lines
  have hnodup : lines.Nodup := by
    have h := nodup_map_firstPerKey id [] (symbols.map (·.position.line))
    rwa [hlines, List.map_id] at h
  have hsorted : (lines.mergeSort fun a b => decide (b ≤ a)).Pairwise
      fun a b => decide (b ≤ a) = true := by
    apply List.pairwise_mergeSort
    · intro a b c hab hbc
      simp only [decide_eq_true_eq] at *
      omega
    · intro a b
      simp only [Bool.or_eq_true, decide_eq_true_eq]
      omega
  have hdistinct := (List.mergeSort_perm lines fun a b => decide (b ≤ a)).nodup_iff.mpr hnodup
  rw [definitionLines, hlines]
  refine (hsorted.and hdistinct).imp fun h => ?_
  have := of_decide_eq_true h.1
  omega

theorem lineOwner?_mem {symbols : List Symbol} {owner : Symbol} (h : lineOwner? symbols = some owner) :
    ∃ first ∈ symbols, owner.position = first.position := by
  unfold lineOwner? at h
  split at h
  · cases h
  · next first rest hsorted =>
    obtain rfl := Option.some.inj h
    refine ⟨first, ?_, rfl⟩
    rw [← List.mem_mergeSort, hsorted]
    exact List.mem_cons_self

/-- A task is for the owner of the line and brings its entries, of which there are some. -/
theorem lineTask?_spec {symbols : List Symbol} {options : EntryOptions} {line : Nat} {task : Task}
    (h : lineTask? symbols options line = some task) :
    lineOwner? (symbols.filter (·.position.line == line)) = some task.owner ∧
      task.entries = task.owner.entries options ∧ task.entries ≠ [] := by
  unfold lineTask? at h
  split at h
  · cases h
  · next owner howner =>
    split at h
    · cases h
    · next hne =>
      obtain rfl := Option.some.inj h
      exact ⟨howner, rfl, by simpa using hne⟩

theorem line_eq_of_lineTask? {symbols : List Symbol} {options : EntryOptions} {line : Nat}
    {task : Task} (h : lineTask? symbols options line = some task) : task.line = line := by
  obtain ⟨first, hfirst, hposition⟩ := lineOwner?_mem (lineTask?_spec h).1
  rw [Task.line, hposition]
  simpa using (List.mem_filter.mp hfirst).2

/-- The tasks go upwards, one line after the other. -/
theorem pairwise_annotateTasks (file : String) (symbols : List Symbol) (options : AnnotateOptions) :
    (annotateTasks file symbols options).Pairwise fun a b => b.line < a.line := by
  unfold annotateTasks
  split
  · rw [List.pairwise_filterMap]
    refine (pairwise_definitionLines _).imp fun hlt a ha b hb => ?_
    rw [line_eq_of_lineTask? ha, line_eq_of_lineTask? hb]
    exact hlt
  · exact List.Pairwise.nil

theorem exists_lineTask?_of_mem_annotateTasks {file : String} {symbols : List Symbol}
    {options : AnnotateOptions} {task : Task} (h : task ∈ annotateTasks file symbols options) :
    ∃ line, lineTask? (symbols.filter (·.filePath == file)) options.entries line = some task := by
  unfold annotateTasks at h
  split at h
  · obtain ⟨line, -, htask⟩ := List.mem_filterMap.mp h
    exact ⟨line, htask⟩
  · cases h

theorem entries_ne_nil_of_mem_annotateTasks {file : String} {symbols : List Symbol}
    {options : AnnotateOptions} {task : Task} (h : task ∈ annotateTasks file symbols options) :
    task.entries ≠ [] := by
  obtain ⟨line, htask⟩ := exists_lineTask?_of_mem_annotateTasks h
  exact (lineTask?_spec htask).2.2

end Lines

end Concordance
