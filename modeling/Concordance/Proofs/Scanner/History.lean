import Concordance.Proofs.Scanner.Table

/-!
A session forgets its history: after a deep batch only the last content of each file counts.

The content that each file was last scanned with (`contentsAfter`) tells what is remembered of the
files, so two sessions with the same contents mirror one memory. Main statement:
`History.symbols_result_eq`.
-/

namespace Concordance.Scanner

/-- The content that each file was last scanned with, if it was not cleared since. -/
abbrev Contents : Type :=
  String → Option String

/-- The contents after a scan of the file. -/
def Contents.put (known : Contents) (file : SourceFile) : Contents :=
  Function.update known file.path (some file.content)

/-- The contents after an operation; of two files of a batch with one path the later counts. -/
def Contents.after (known : Contents) : Action → Contents
  | .register _ _ => known
  | .scan file _ => known.put file
  | .clear path => Function.update known path none
  | .batch files _ _ => files.foldl Contents.put known

/-- The contents after a run of operations in a new session. -/
def contentsAfter (actions : List Action) : Contents :=
  actions.foldl Contents.after fun _ => none

/-- The operation changes what an extension is read as. -/
def Action.registers : Action → Bool
  | .register _ _ => true
  | _ => false

/-- The last content that the files give each path. -/
def lastContents (files : List SourceFile) : Contents :=
  fun path => (lastWith SourceFile.path path files).map SourceFile.content

/-- A new session with the registry. -/
abbrev ofRegistry (registry : Std.TreeMap String Language) : Scanner :=
  { registry := registry }

/-- What is remembered of files with the contents. -/
def remembered (s : Scanner) (known : Contents) : Memory :=
  fun path => (known path).bind fun content => s.reading? ⟨path, content⟩

section Batch

theorem foldl_put (files : List SourceFile) (known : Contents) (path : String) :
    files.foldl Contents.put known path = (lastContents files path).or (known path) := by
  induction files using List.reverseRecOn with
  | nil => simp [lastContents, lastWith]
  | append_singleton files file ih =>
    rw [List.foldl_concat, Contents.put, lastContents, lastWith_concat]
    by_cases hpath : file.path = path
    · simp [hpath]
    · rw [Function.update_of_ne (Ne.symm hpath), ih, if_neg hpath, lastContents]

theorem foldl_put_batchFiles (files : List SourceFile) (known : Contents) :
    (batchFiles files).foldl Contents.put known = files.foldl Contents.put known := by
  funext path
  rw [foldl_put, foldl_put, lastContents, lastContents, lastWith_batchFiles]

theorem lastWith_eq_lastContents (files : List SourceFile) (path : String) :
    lastWith SourceFile.path path files =
      (lastContents files path).map fun content => ⟨path, content⟩ := by
  unfold lastContents
  cases hlast : lastWith SourceFile.path path files with
  | none => rfl
  | some file => rw [← (mem_of_lastWith hlast).2]; rfl

/-- Of a batch only the last content of each path counts. -/
theorem batchFiles_congr {files files' : List SourceFile}
    (h : lastContents files = lastContents files') : batchFiles files = batchFiles files' := by
  refine Std.TreeMap.Equiv.values_eq (Std.TreeMap.Equiv.of_forall_constGet?_eq fun path => ?_)
  have hpath : lastWith SourceFile.path path files = lastWith SourceFile.path path files' := by
    rw [lastWith_eq_lastContents, lastWith_eq_lastContents, h]
  rwa [← getElem?_batchTable, ← getElem?_batchTable] at hpath

end Batch

section Recall

variable {s : Scanner} {actions : List Action}

theorem remembered_congr {s' : Scanner} (h : s.registry = s'.registry) :
    s.remembered = s'.remembered := by
  funext known path
  rw [remembered, remembered, reading?_congr h]

theorem note_remembered (s : Scanner) (known : Contents) (file : SourceFile) :
    s.note (s.remembered known) file = s.remembered (known.put file) := by
  funext path
  unfold note remembered Contents.put
  by_cases hpath : path = file.path
  · subst hpath
    simp
  · simp [hpath]

theorem foldl_note_remembered (s : Scanner) (known : Contents) (files : List SourceFile) :
    files.foldl s.note (s.remembered known) = s.remembered (files.foldl Contents.put known) := by
  induction files generalizing known with
  | nil => rfl
  | cons file files ih => rw [List.foldl_cons, note_remembered, ih, List.foldl_cons]

/-- What is remembered after an operation is what its contents tell. -/
theorem remember_remembered (s : Scanner) (known : Contents) (action : Action) :
    s.remember (s.remembered known) action = s.remembered (known.after action) := by
  cases action with
  | register extension language => rfl
  | scan file now => exact note_remembered s known file
  | clear path =>
    funext other
    unfold remember remembered Contents.after
    by_cases hpath : other = path
    · simp [hpath]
    · simp [hpath]
  | batch files depth now =>
    rw [remember, foldl_note_remembered, foldl_put_batchFiles]
    rfl

theorem registry_foldl_scanFile (s : Scanner) (files : List SourceFile) (now : Int) :
    (files.foldl (fun s f => (s.scanFile f now).1) s).registry = s.registry := by
  induction files generalizing s with
  | nil => rfl
  | cons file files ih => rw [List.foldl_cons, ih, registry_scanFile]

theorem registry_scanBatch (s : Scanner) (files : List SourceFile) (depth : ScanDepth) (now : Int) :
    (s.scanBatch files depth now).registry = s.registry := by
  cases depth with
  | deep => exact registry_foldl_scanFile s (batchFiles files) now
  | basic => exact registry_foldl_scanFile s (batchFiles files) now

theorem registry_apply {action : Action} (h : action.registers = false) :
    (s.apply action).registry = s.registry := by
  cases action with
  | register extension language => simp [Action.registers] at h
  | scan file now => exact registry_scanFile s file now
  | clear path => exact registry_clearFile s path
  | batch files depth now => exact registry_scanBatch s files depth now

theorem registry_run (h : ∀ a ∈ actions, a.registers = false) :
    (s.run actions).registry = s.registry := by
  induction actions generalizing s with
  | nil => rfl
  | cons action rest ih =>
    rw [List.forall_mem_cons] at h
    exact (ih h.2).trans (registry_apply h.1)

theorem rememberAlong_remembered (h : ∀ a ∈ actions, a.registers = false) (known : Contents) :
    s.rememberAlong (s.remembered known) actions =
      s.remembered (actions.foldl Contents.after known) := by
  induction actions generalizing s known with
  | nil => rfl
  | cons action rest ih =>
    rw [List.forall_mem_cons] at h
    have hremembered := remembered_congr (registry_apply (s := s) h.1)
    rw [rememberAlong, remember_remembered, ← hremembered, ih h.2, List.foldl_cons]

end Recall

/-- A new session with the registry mirrors what the contents after a run tell. -/
theorem mirrors_contentsAfter {registry : Std.TreeMap String Language} {actions : List Action}
    (hsame : ∀ a ∈ actions, a.registers = false)
    (hread : IdsApart ((ofRegistry registry).readAlong actions)) :
    ((ofRegistry registry).run actions).Mirrors
      ((ofRegistry registry).remembered (contentsAfter actions)) := by
  have hnone : Memory.Within (fun _ => none) ((ofRegistry registry).readAlong actions) := by
    intro path symbols h
    cases h
  have hmirrors := ((mirrors_empty registry).run hnone hread (List.Subset.refl _)).1
  have hremembered := rememberAlong_remembered (s := ofRegistry registry) hsame fun _ => none
  exact hremembered ▸ hmirrors

/-- Sessions that mirror one memory hold the same definitions, but for their uses. -/
theorem Mirrors.bare_eq {s s' : Scanner} {memory : Memory} (h : s.Mirrors memory)
    (h' : s'.Mirrors memory) (id : String) :
    s.table[id]?.map Symbol.bare = s'.table[id]?.map Symbol.bare := by
  have hstored : ∀ {path symbols}, memory path = some symbols → id ∈ symbols.map Symbol.id →
      s.table[id]?.map Symbol.bare = s'.table[id]?.map Symbol.bare := fun hpath hid =>
    (h.stored hpath id hid).trans (h'.stored hpath id hid).symm
  cases hd : s.table[id]? with
  | some d =>
    obtain ⟨path, symbols, hpath, hid⟩ := h.listed hd
    rw [← hd]
    exact hstored hpath hid
  | none =>
    cases hd' : s'.table[id]? with
    | none => rfl
    | some d' =>
      obtain ⟨path, symbols, hpath, hid⟩ := h'.listed hd'
      rw [← hd, ← hd']
      exact hstored hpath hid

theorem usagesOf_congr {s s' : Scanner} (h : s.registry = s'.registry) :
    s.usagesOf = s'.usagesOf := by
  funext prepared d
  unfold usagesOf
  rw [languageFor?_congr h]

theorem prepare_congr {s s' : Scanner} (h : s.registry = s'.registry) :
    s.prepare = s'.prepare := by
  funext files
  rw [prepare, prepare, languageFor?_congr h]

theorem firstPerLine_bare (s : SourceText) (path : String) (d : Symbol) (seen : List Nat)
    (candidates : List Candidate) :
    firstPerLine s path d.bare seen candidates = firstPerLine s path d seen candidates := by
  induction candidates generalizing seen with
  | nil => rfl
  | cons c rest ih =>
    have hon : ∀ line, c.usageOn? s path d.bare line = c.usageOn? s path d line := fun _ => rfl
    simp only [firstPerLine, hon, ih]

theorem candidates_bare (language : Language) (s : SourceText) (d : Symbol) :
    language.candidates s d.bare = language.candidates s d := by
  cases language <;> rfl

/-- The uses that are known do not matter to a search for uses. -/
theorem usagesOf_bare (s : Scanner) (prepared : List PreparedFile) (d : Symbol) :
    s.usagesOf prepared d.bare = s.usagesOf prepared d := by
  have hin : ∀ (language : Language) source path,
      language.usagesIn source path d.bare = language.usagesIn source path d := by
    intro language source path
    rw [Language.usagesIn, collectUsages, firstPerLine_bare, candidates_bare]
    rfl
  have hfile : d.bare.filePath = d.filePath := rfl
  have hkind : d.bare.kind = d.kind := rfl
  unfold usagesOf
  simp only [hin, hfile, hkind]

/-- After a deep batch the uses in the table are those found in the files of the batch. -/
theorem table_scanBatch_deep (s : Scanner) (files : List SourceFile) (now : Int) (id : String) :
    (s.scanBatch files .deep now).table[id]? =
      ((s.scanBatch files .deep now).table[id]?.map Symbol.bare).map fun d =>
        { d with usages := s.usagesOf (s.prepare (batchFiles files)) d } := by
  have hregistry := registry_foldl_scanFile s (batchFiles files) now
  rw [scanBatch, table_discoverUsages, usagesOf_congr hregistry, prepare_congr hregistry,
    Option.map_map, Option.map_map]
  congr 1
  funext d
  rw [Function.comp_apply, Function.comp_apply]
  exact congrArg (fun usages => { d with usages := usages }) (usagesOf_bare ..).symm

/-- All definitions are determined by the look-ups. -/
theorem allSymbols_congr {s s' : Scanner} (h : ∀ id : String, s.table[id]? = s'.table[id]?) :
    s.allSymbols = s'.allSymbols := by
  have hvalues : s.table.values = s'.table.values :=
    Std.TreeMap.Equiv.values_eq (Std.TreeMap.Equiv.of_forall_constGet?_eq h)
  rw [allSymbols, allSymbols, hvalues]

/-- Operations on a new session, with a deep batch at the end. -/
structure History where
  actions : List Action
  /-- The files of the last batch. -/
  files : List SourceFile
  now : Int
  elapsed : Nat

namespace History

/-- All operations. -/
def all (h : History) : List Action :=
  h.actions ++ [.batch h.files .deep h.now]

/-- What the last batch found. -/
def result (h : History) (registry : Std.TreeMap String Language) : ScanResult :=
  (((ofRegistry registry).run h.actions).processBatch h.files .deep h.now h.elapsed).2

variable {registry : Std.TreeMap String Language} {h h' : History}

theorem symbols_result (h : History) (registry : Std.TreeMap String Language) :
    (h.result registry).symbols = ((ofRegistry registry).run h.all).allSymbols := by
  rw [all, run, List.foldl_concat]
  rfl

theorem table_run_all (hsame : ∀ a ∈ h.actions, a.registers = false) (id : String) :
    ((ofRegistry registry).run h.all).table[id]? =
      (((ofRegistry registry).run h.all).table[id]?.map Symbol.bare).map fun d =>
        { d with
          usages := (ofRegistry registry).usagesOf
            ((ofRegistry registry).prepare (batchFiles h.files)) d } := by
  have hregistry := registry_run (s := ofRegistry registry) hsame
  rw [← usagesOf_congr hregistry, ← prepare_congr hregistry, all, run, List.foldl_concat]
  exact table_scanBatch_deep ((ofRegistry registry).run h.actions) h.files h.now id

/-- Two histories after which the same files are scanned, with the same last contents, and that end
with deep batches of the same last contents, find the same definitions with the same uses. Nothing
else of a history matters: not the order of its operations or of the files of a batch, nor how often
a batch was repeated. -/
theorem symbols_result_eq (registry : Std.TreeMap String Language) (h h' : History)
    (hsame : ∀ a ∈ h.actions ++ h'.actions, a.registers = false)
    (hcontents : contentsAfter h.all = contentsAfter h'.all)
    (hbatch : lastContents h.files = lastContents h'.files)
    (hread : IdsApart ((ofRegistry registry).readAlong h.all))
    (hread' : IdsApart ((ofRegistry registry).readAlong h'.all)) :
    (h.result registry).symbols = (h'.result registry).symbols := by
  rw [List.forall_mem_append] at hsame
  have hall : ∀ {h : History}, (∀ a ∈ h.actions, a.registers = false) →
      ∀ a ∈ h.all, a.registers = false := by
    intro h hsame
    rw [all, List.forall_mem_append, List.forall_mem_singleton]
    exact ⟨hsame, rfl⟩
  have hmirrors := mirrors_contentsAfter (hall hsame.1) hread
  have hmirrors' := mirrors_contentsAfter (hall hsame.2) hread'
  rw [← hcontents] at hmirrors'
  rw [symbols_result, symbols_result]
  refine allSymbols_congr fun id => ?_
  rw [table_run_all hsame.1, table_run_all hsame.2, hmirrors.bare_eq hmirrors' id,
    batchFiles_congr hbatch]

/-- A file is scanned with an older content, another is cleared again, and a path is given twice in
the last batch. -/
def roundabout : History where
  actions :=
    [.scan ⟨"a.js", "f();\n"⟩ 0,
      .batch [⟨"c.js", "g();\n"⟩, ⟨"b.js", "function g() {}\n"⟩] .deep 1,
      .clear "c.js"]
  files := [⟨"a.js", "f();\n"⟩, ⟨"a.js", "function f() {}\ng();\n"⟩]
  now := 2
  elapsed := 3

/-- The same files, each scanned once. -/
def direct : History where
  actions := [.scan ⟨"b.js", "function g() {}\n"⟩ 0]
  files := [⟨"a.js", "function f() {}\ng();\n"⟩]
  now := 1
  elapsed := 0

theorem symbols_roundabout_eq_direct :
    (direct.result withDefaults.registry).symbolsFound = 2 ∧
      (direct.result withDefaults.registry).usagesFound = 1 ∧
      (roundabout.result withDefaults.registry).symbols =
        (direct.result withDefaults.registry).symbols := by
  have hcontents : contentsAfter roundabout.all = contentsAfter direct.all := by
    funext path
    simp only [contentsAfter, roundabout, direct, all, List.cons_append, List.nil_append,
      List.foldl_cons, List.foldl_nil, Contents.after, Contents.put, Function.update_apply]
    by_cases ha : path = "a.js"
    · simp [ha]
    · by_cases hc : path = "c.js"
      · simp [hc]
      · simp [ha, hc]
  have hbatch : lastContents roundabout.files = lastContents direct.files := by
    funext path
    by_cases ha : "a.js" = path
    · simp [lastContents, lastWith, roundabout, direct, ha]
    · simp [lastContents, lastWith, roundabout, direct, ha]
  refine ⟨by decide +kernel, by decide +kernel, ?_⟩
  exact symbols_result_eq withDefaults.registry roundabout direct (by decide) hcontents hbatch
    (by decide +kernel) (by decide +kernel)

end History

end Concordance.Scanner
