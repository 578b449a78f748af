import Concordance.Proofs.Scanner.History

/-!
When a file was last scanned, and whether its definitions are known.

A scan records its time together with the definitions that it reads. Clearing a file takes its
definitions away but leaves the time, so a file that was cleared passes for scanned until it is
scanned again. A file is followed through a run by the definitions of its last scan (`lastRead?`) and by
whether it was cleared since (`clearedSince`).

Main statements: `Follows.run` (what the session lists, remembers and records of the file) and
`fileCount_run_and_current` (exactly the scanned files that were not cleared since are counted, and
their definitions are in the table).
-/

namespace Concordance.Scanner

/-- The operation clears the file. -/
def Action.clears (path : String) : Action → Bool
  | .clear other => other == path
  | _ => false

/-- The operation scans the file. -/
def Action.scans (path : String) (action : Action) : Bool :=
  action.files.any (·.path == path)

/-- Whether a file that was `cleared` or not before an operation is cleared after it. -/
def Action.leavesCleared (path : String) (cleared : Bool) (action : Action) : Bool :=
  action.clears path || (cleared && !action.scans path)

/-- The file was cleared and not scanned since. -/
def clearedSince (path : String) (actions : List Action) : Bool :=
  actions.foldl (Action.leavesCleared path) false

/-- The definitions that the operation reads from the file: those of its last scan, if it scans the
file and knows its extension. -/
def reads? (path : String) (s : Scanner) (action : Action) : Option (List Symbol) :=
  (lastWith SourceFile.path path action.files).bind s.reading?

/-- The definitions that the last scan of the file in a run reads. -/
def lastRead? (path : String) : Scanner → List Action → Option (List Symbol)
  | _, [] => none
  | s, action :: rest => (lastRead? path (s.apply action) rest).or (s.reads? path action)

section Stamps

@[simp] theorem stamps_clearFile (s : Scanner) (path : String) :
    (s.clearFile path).stamps = s.stamps := by
  unfold clearFile
  split <;> rfl

theorem lastScanned?_store (s : Scanner) (path other : String) (symbols : List Symbol) (now : Int) :
    (s.store path symbols now).lastScanned? other =
      if other = path then some now else s.lastScanned? other := by
  unfold lastScanned? store
  by_cases hpath : other = path
  · simp [hpath]
  · simp [Std.TreeMap.getElem?_insert, hpath, Ne.symm hpath]

end Stamps

/-- What a session lists, remembers and records of a file that was last read as `read`, if ever, and
was `cleared` since or not. -/
structure Follows (s : Scanner) (memory : Memory) (path : String) (read : Option (List Symbol))
    (cleared : Bool) : Prop where
  listed : s.files[path]? = (memory path).map (List.map Symbol.id)
  remembered : memory path = if cleared then none else read
  stamped : (s.lastScanned? path).isSome = read.isSome
  /-- An extension that was known once stays known. -/
  known : read.isSome = true → (s.languageFor? path).isSome = true

section Follow

variable {s : Scanner} {memory : Memory} {path : String} {read : Option (List Symbol)}
  {cleared : Bool}

theorem isSome_reading? (s : Scanner) (file : SourceFile) :
    (s.reading? file).isSome = (s.languageFor? file.path).isSome :=
  Option.isSome_map

theorem isSome_languageFor?_register (extension : String) (language : Language)
    (h : (s.languageFor? path).isSome = true) :
    ((s.register extension language).languageFor? path).isSome = true := by
  unfold languageFor? register at *
  cases hext : extensionOf? path with
  | none => simp [hext] at h
  | some e =>
    rw [hext, Option.bind_some] at h
    rw [Option.bind_some, Std.TreeMap.getElem?_insert]
    split
    · rfl
    · exact h

theorem Follows.clearFile (h : s.Follows memory path read cleared) (other : String) :
    (s.clearFile other).Follows (Function.update memory other none) path read
      (Action.leavesCleared path cleared (.clear other)) := by
  have hknown := languageFor?_congr (registry_clearFile s other)
  by_cases hpath : path = other
  · subst hpath
    refine ⟨?_, ?_, ?_, ?_⟩
    · simp [files_clearFile]
    · simp [Action.leavesCleared, Action.clears]
    · rw [lastScanned?, stamps_clearFile]
      exact h.stamped
    · rw [hknown]
      exact h.known
  · refine ⟨?_, ?_, ?_, ?_⟩
    · rw [files_clearFile, if_neg hpath, Function.update_of_ne hpath]
      exact h.listed
    · have hleft : Action.leavesCleared path cleared (.clear other) = cleared := by
        simp [Action.leavesCleared, Action.clears, Action.scans, Action.files, Ne.symm hpath]
      rw [hleft, Function.update_of_ne hpath]
      exact h.remembered
    · rw [lastScanned?, stamps_clearFile]
      exact h.stamped
    · rw [hknown]
      exact h.known

/-- A scan of another file changes nothing here. -/
theorem Follows.scanFile_of_ne (h : s.Follows memory path read cleared) {file : SourceFile}
    (hne : path ≠ file.path) (now : Int) :
    (s.scanFile file now).1.Follows (s.note memory file) path read cleared where
  listed := by
    rw [scanFile_eq, note, Function.update_of_ne hne]
    cases s.reading? file with
    | none => exact (files_clearFile s file.path path).trans ((if_neg hne).trans h.listed)
    | some symbols =>
      dsimp only
      rw [files_store, if_neg hne, files_clearFile, if_neg hne]
      exact h.listed
  remembered := by
    rw [note, Function.update_of_ne hne]
    exact h.remembered
  stamped := by
    rw [← h.stamped, scanFile_eq]
    cases s.reading? file with
    | none => rw [lastScanned?, stamps_clearFile, lastScanned?]
    | some symbols =>
      dsimp only
      rw [lastScanned?_store, if_neg hne, lastScanned?, stamps_clearFile, lastScanned?]
  known := by
    rw [languageFor?_congr (registry_scanFile s file now)]
    exact h.known

/-- A scan of the file reads it anew. -/
theorem Follows.scanFile_self {file : SourceFile} (h : s.Follows memory file.path read cleared)
    (now : Int) :
    (s.scanFile file now).1.Follows (s.note memory file) file.path ((s.reading? file).or read)
      false := by
  have hknown := languageFor?_congr (registry_scanFile s file now)
  cases hreading : s.reading? file with
  | none =>
    -- An unknown extension was never known, so nothing was ever read.
    have hnone : read = none := by
      rw [← Option.not_isSome_iff_eq_none]
      intro hsome
      have hlanguage := h.known hsome
      rw [← isSome_reading?, hreading] at hlanguage
      cases hlanguage
    have hscan : (s.scanFile file now).1 = s.clearFile file.path := by
      rw [scanFile_eq, hreading]
    refine ⟨?_, ?_, ?_, ?_⟩
    · simp [hscan, files_clearFile, note, hreading]
    · simp [note, hreading, hnone]
    · rw [hscan, lastScanned?, stamps_clearFile]
      exact h.stamped
    · rw [hknown]
      exact h.known
  | some symbols =>
    have hscan : (s.scanFile file now).1 = (s.clearFile file.path).store file.path symbols now := by
      rw [scanFile_eq, hreading]
    refine ⟨?_, ?_, ?_, ?_⟩
    · simp [hscan, files_store, note, hreading]
    · simp [note, hreading]
    · simp [hscan, lastScanned?_store]
    · intro _
      rw [hknown, ← isSome_reading?, hreading]
      rfl

theorem Follows.scanFile (h : s.Follows memory path read cleared) (file : SourceFile) (now : Int) :
    (s.scanFile file now).1.Follows (s.note memory file) path
      ((if file.path = path then s.reading? file else none).or read)
      (cleared && !(file.path == path)) := by
  by_cases hpath : file.path = path
  · subst hpath
    simpa using h.scanFile_self now
  · have hleft : (cleared && !(file.path == path)) = cleared := by simp [hpath]
    rw [if_neg hpath, Option.none_or, hleft]
    exact h.scanFile_of_ne (Ne.symm hpath) now

/-- Files scanned one after the other: the last of them with the path is read. -/
theorem Follows.scanFiles (h : s.Follows memory path read cleared) (files : List SourceFile)
    (now : Int) :
    (files.foldl (fun s f => (s.scanFile f now).1) s).Follows (files.foldl s.note memory) path
      (((lastWith SourceFile.path path files).bind s.reading?).or read)
      (cleared && !files.any (·.path == path)) := by
  induction files using List.reverseRecOn with
  | nil => simpa [lastWith] using h
  | append_singleton files file ih =>
    have hreading := reading?_congr (registry_foldl_scanFile s files now)
    have hnote : (files.foldl (fun s f => (s.scanFile f now).1) s).note = s.note := by
      funext memory file
      rw [note, note, hreading]
    have hscan := ih.scanFile file now
    rw [hnote, hreading] at hscan
    have hleft : (cleared && !(files ++ [file]).any (·.path == path)) =
        (cleared && !files.any (·.path == path) && !(file.path == path)) := by
      simp [Bool.and_assoc]
    rw [List.foldl_concat, List.foldl_concat, lastWith_concat, hleft]
    by_cases hpath : file.path = path
    · rw [if_pos hpath] at hscan ⊢
      rw [Option.bind_some]
      cases hlast : lastWith SourceFile.path path files with
      | none => rwa [hlast, Option.bind_none, Option.none_or] at hscan
      | some earlier =>
        -- Files with one path are read or not together, so the later one decides alone.
        have hsome : (s.reading? earlier).isSome = (s.reading? file).isSome := by
          rw [isSome_reading?, isSome_reading?, (mem_of_lastWith hlast).2, hpath]
        rw [hlast, Option.bind_some] at hscan
        cases hfile : s.reading? file with
        | none =>
          rw [hfile, Option.isSome_none, Option.isSome_eq_false_iff, Option.isNone_iff_eq_none]
            at hsome
          rwa [hfile, hsome] at hscan
        | some symbols => rwa [hfile] at hscan
    · rw [if_neg hpath] at hscan ⊢
      rwa [Option.none_or] at hscan

/-- What an operation does to the session it does to what is known of the file. -/
theorem Follows.apply (h : s.Follows memory path read cleared) (action : Action) :
    (s.apply action).Follows (s.remember memory action) path
      ((s.reads? path action).or read) (action.leavesCleared path cleared) := by
  cases action with
  | register extension language =>
    have hleft : Action.leavesCleared path cleared (.register extension language) = cleared := by
      simp [Action.leavesCleared, Action.clears, Action.scans, Action.files]
    rw [hleft]
    exact ⟨h.listed, h.remembered, h.stamped, fun hread =>
      isSome_languageFor?_register extension language (h.known hread)⟩
  | scan file now => exact h.scanFiles [file] now
  | clear other => exact h.clearFile other
  | batch files depth now =>
    have hbatch := h.scanFiles (batchFiles files) now
    cases depth with
    | deep => exact ⟨hbatch.listed, hbatch.remembered, hbatch.stamped, hbatch.known⟩
    | basic => exact hbatch

/-- A run leaves the file as its last scan and what came after it say. -/
theorem Follows.run (h : s.Follows memory path read cleared) (actions : List Action) :
    (s.run actions).Follows (s.rememberAlong memory actions) path
      ((s.lastRead? path actions).or read)
      (actions.foldl (Action.leavesCleared path) cleared) := by
  induction actions generalizing s memory read cleared with
  | nil => exact h
  | cons action rest ih =>
    have hrest := ih (h.apply action)
    rwa [← Option.or_assoc] at hrest

theorem follows_empty (registry : Std.TreeMap String Language) (path : String) :
    Follows { registry := registry } (fun _ => none) path none false := by
  refine ⟨?_, rfl, ?_, ?_⟩
  · simp
  · simp [lastScanned?]
  · simp

end Follow

/-- The file has the definitions in the table, but for their uses; of two with one id the later
counts. -/
def HoldsCurrent (s : Scanner) (path : String) (symbols : List Symbol) : Prop :=
  ∀ d, d ∈ (s.symbolsIn path).map Symbol.bare ↔ lastWith Symbol.id d.id symbols = some d

section Run

variable {s : Scanner} {path : String}

theorem mem_symbolsIn {d : Symbol} :
    d ∈ s.symbolsIn path ↔ ∃ ids, s.files[path]? = some ids ∧ ∃ id ∈ ids, s.table[id]? = some d := by
  rw [symbolsIn, List.mem_mergeSort, Scanner.listed, List.mem_filterMap]
  cases s.files[path]? <;> simp

/-- What a session remembers of a file is in its table. -/
theorem Mirrors.holdsCurrent {memory : Memory} (h : s.Mirrors memory) {symbols : List Symbol}
    (hpath : memory path = some symbols) : s.HoldsCurrent path symbols := by
  have hfiles : s.files[path]? = some (symbols.map Symbol.id) := by rw [h.files, hpath]; rfl
  intro d
  rw [List.mem_map]
  constructor
  · rintro ⟨e, he, rfl⟩
    obtain ⟨ids, hids, id, hid, htable⟩ := mem_symbolsIn.mp he
    obtain rfl := Option.some.inj (hfiles.symm.trans hids)
    have hstored := h.stored hpath id hid
    rw [htable, Option.map_some] at hstored
    rw [(mem_of_lastWith hstored.symm).2]
    exact hstored.symm
  · intro hlast
    have hid : d.id ∈ symbols.map Symbol.id := List.mem_map_of_mem (mem_of_lastWith hlast).1
    have hstored := h.stored hpath d.id hid
    rw [hlast] at hstored
    obtain ⟨e, htable, he⟩ := Option.map_eq_some_iff.mp hstored
    exact ⟨e, mem_symbolsIn.mpr ⟨_, hfiles, d.id, hid, htable⟩, he⟩

theorem Follows.contains_iff {memory : Memory} {read : Option (List Symbol)} {cleared : Bool}
    (h : s.Follows memory path read cleared) :
    s.files.contains path = true ↔ (s.lastScanned? path).isSome = true ∧ cleared = false := by
  rw [Std.TreeMap.contains_eq_isSome_getElem?, h.listed, h.remembered, h.stamped]
  cases cleared <;> simp

theorem Follows.symbolsIn_eq_nil {memory : Memory} {read : Option (List Symbol)}
    (h : s.Follows memory path read true) : s.symbolsIn path = [] := by
  rw [List.eq_nil_iff_forall_not_mem]
  intro d hd
  obtain ⟨ids, hids, -⟩ := mem_symbolsIn.mp hd
  rw [h.listed, h.remembered] at hids
  cases hids

/-- The number of counted files, by their times. -/
theorem fileCount_eq_of_contains_iff {cleared : String → Bool}
    (h : ∀ path, s.files.contains path = true ↔
      (s.lastScanned? path).isSome = true ∧ cleared path = false) :
    s.fileCount = (s.stamps.keys.filter fun path => !cleared path).length := by
  rw [fileCount, ← Std.TreeMap.length_keys]
  apply List.Perm.length_eq
  refine (List.perm_ext_iff_of_nodup Std.TreeMap.nodup_keys
    (Std.TreeMap.nodup_keys.filter _)).mpr fun path => ?_
  rw [Std.TreeMap.mem_keys, List.mem_filter, Std.TreeMap.mem_keys, Std.TreeMap.mem_iff_contains, h,
    Std.TreeMap.mem_iff_contains, Std.TreeMap.contains_eq_isSome_getElem?]
  simp [lastScanned?]

theorem isSome_lastScanned?_of_needsRescan {changed : Int}
    (h : s.needsRescan path changed = false) : (s.lastScanned? path).isSome = true := by
  cases hstamp : s.lastScanned? path with
  | none => simp [needsRescan, isStale, hstamp] at h
  | some stamp => rfl

/-- In every session that starts empty or with the usual extensions, after every run: the counted
files are those that were scanned and not cleared since, and a file that needs no new scan was
scanned. Its definitions are those of the last scan, if no two files share an id; if it was cleared
since it has none. -/
theorem fileCount_run_and_current {start : Scanner} (hstart : start = {} ∨ start = withDefaults)
    (actions : List Action) :
    (∀ path, (start.run actions).files.contains path = true ↔
        ((start.run actions).lastScanned? path).isSome = true ∧
          clearedSince path actions = false) ∧
      (start.run actions).fileCount =
        ((start.run actions).stamps.keys.filter fun path => !clearedSince path actions).length ∧
      ∀ path changed, (start.run actions).needsRescan path changed = false →
        ∃ symbols, start.lastRead? path actions = some symbols ∧
          if clearedSince path actions then (start.run actions).symbolsIn path = []
          else IdsApart (start.readAlong actions) →
            (start.run actions).HoldsCurrent path symbols := by
  have hempty : ∃ registry, start = { registry := registry } := by
    rcases hstart with rfl | rfl
    · exact ⟨∅, rfl⟩
    · exact ⟨withDefaults.registry, rfl⟩
  obtain ⟨registry, hregistry⟩ := hempty
  have hfollows : ∀ path, (start.run actions).Follows (start.rememberAlong (fun _ => none) actions)
      path (start.lastRead? path actions) (clearedSince path actions) := by
    intro path
    have hrun := (follows_empty registry path).run actions
    rwa [← hregistry, Option.or_none] at hrun
  have hcontains : ∀ path, (start.run actions).files.contains path = true ↔
      ((start.run actions).lastScanned? path).isSome = true ∧
        clearedSince path actions = false := fun path => (hfollows path).contains_iff
  refine ⟨hcontains, fileCount_eq_of_contains_iff hcontains, fun path changed hfresh => ?_⟩
  have h := hfollows path
  have hscanned := isSome_lastScanned?_of_needsRescan hfresh
  rw [h.stamped] at hscanned
  obtain ⟨symbols, hread⟩ := Option.isSome_iff_exists.mp hscanned
  refine ⟨symbols, hread, ?_⟩
  split
  · next hcleared =>
    rw [hcleared] at h
    exact h.symbolsIn_eq_nil
  · next hcleared =>
    intro hapart
    have hremembered := h.remembered
    rw [if_neg hcleared, hread] at hremembered
    have hnone : Memory.Within (fun _ => none) (start.readAlong actions) := by
      intro path symbols h
      cases h
    have hmirrors : start.Mirrors fun _ => none := hregistry ▸ mirrors_empty registry
    exact (hmirrors.run hnone hapart (List.Subset.refl _)).1.holdsCurrent hremembered

/-- A file is scanned, cleared and scanned again in a batch, and another one is cleared at last. -/
def rescannedRun : List Action :=
  [.scan ⟨"a.css", ".old {}"⟩ 0,
    .clear "a.css",
    .scan ⟨"b.css", ".b {}"⟩ 1,
    .batch [⟨"a.css", ".a {}"⟩] .deep 2,
    .clear "b.css"]

theorem fileCount_run_and_current_rescanned :
    (withDefaults.run rescannedRun).fileCount = 1 ∧
      (withDefaults.run rescannedRun).needsRescan "a.css" 2 = false ∧
      IdsApart (withDefaults.readAlong rescannedRun) ∧
      ∃ symbols, withDefaults.lastRead? "a.css" rescannedRun = some symbols ∧
        (withDefaults.run rescannedRun).HoldsCurrent "a.css" symbols := by
  obtain ⟨-, hcount, hcurrent⟩ := fileCount_run_and_current (Or.inr rfl) rescannedRun
  have hstamps : ((withDefaults.run rescannedRun).stamps.keys.filter fun path =>
      !clearedSince path rescannedRun).length = 1 := by decide +kernel
  have hfresh : (withDefaults.run rescannedRun).needsRescan "a.css" 2 = false := by decide +kernel
  have hread : IdsApart (withDefaults.readAlong rescannedRun) := by decide +kernel
  have hkept : clearedSince "a.css" rescannedRun = false := by decide +kernel
  obtain ⟨symbols, hlast, hholds⟩ := hcurrent "a.css" 2 hfresh
  rw [hkept] at hholds
  exact ⟨hcount.trans hstamps, hfresh, hread, symbols, hlast, hholds hread⟩

/-- A file is scanned and cleared. -/
def clearedRun : List Action :=
  [.scan ⟨"a.css", ".a {}"⟩ 0, .clear "a.css"]

/-- A cleared file is counted no more and has lost its definition, but it passes for scanned and needs
no new scan. -/
theorem needsRescan_clearedRun :
    ¬ ((withDefaults.run clearedRun).files.contains "a.css" = true ↔
        ((withDefaults.run clearedRun).lastScanned? "a.css").isSome = true) ∧
      (withDefaults.run clearedRun).fileCount = 0 ∧
      (withDefaults.run clearedRun).needsRescan "a.css" 0 = false ∧
      (withDefaults.lastRead? "a.css" clearedRun).map List.length = some 1 ∧
      (withDefaults.run clearedRun).symbolsIn "a.css" = [] := by
  decide +kernel

end Run

end Concordance.Scanner
