import Mathlib.Logic.Function.Basic
import Concordance.Proofs.Definition.Origin
import Concordance.Scanner

/-!
The table of a session: what a look-up finds after an operation, and how the table and the lists of
ids by file belong together.

A session is followed through a run of operations by what it remembers of its files, the definitions
last read from each (`Memory`). Main statements: `Mirrors.apply` and `Mirrors.run` (the session
mirrors its memory after every operation, if no two files share an id) and `consistent_run` (so the
table and the lists are mirror images of each other).
-/

namespace Concordance

section Lookup

variable {α : Type} {key : α → String}

/-- The last value with the key. -/
def lastWith (key : α → String) (k : String) (xs : List α) : Option α :=
  xs.reverse.find? fun a => key a == k

theorem lastWith_concat (key : α → String) (k : String) (xs : List α) (a : α) :
    lastWith key k (xs ++ [a]) = if key a = k then some a else lastWith key k xs := by
  by_cases h : key a = k <;> simp [lastWith, h]

theorem mem_of_lastWith {k : String} {xs : List α} {a : α} (h : lastWith key k xs = some a) :
    a ∈ xs ∧ key a = k := by
  refine ⟨List.mem_reverse.mp (List.mem_of_find?_eq_some h), ?_⟩
  simpa using List.find?_some h

theorem lastWith_eq_none_iff {k : String} {xs : List α} :
    lastWith key k xs = none ↔ k ∉ xs.map key := by
  simp [lastWith]

/-- Of the values with one key the last one is kept. -/
theorem getElem?_foldl_insert (key : α → String) (xs : List α) (t : Std.TreeMap String α)
    (k : String) :
    (xs.foldl (fun t a => t.insert (key a) a) t)[k]? = (lastWith key k xs).or t[k]? := by
  induction xs using List.reverseRecOn with
  | nil => simp [lastWith]
  | append_singleton xs a ih =>
    rw [List.foldl_concat, Std.TreeMap.getElem?_insert, ih, lastWith_concat]
    by_cases h : key a = k <;> simp [h]

theorem getElem?_foldl_erase (ids : List String) (t : Std.TreeMap String α) (k : String) :
    (ids.foldl (fun t id => t.erase id) t)[k]? = if k ∈ ids then none else t[k]? := by
  induction ids generalizing t with
  | nil => simp
  | cons id ids ih =>
    rw [List.foldl_cons, ih, Std.TreeMap.getElem?_erase]
    by_cases hk : k ∈ ids
    · simp [hk]
    · by_cases hid : id = k
      · simp [hid]
      · simp [hk, hid, Ne.symm hid]

theorem values_eq_map_toList (t : Std.TreeMap String α) : t.values = t.toList.map Prod.snd := by
  have hfold : t.values = t.foldr (fun _ a as => a :: as) [] := rfl
  rw [hfold, Std.TreeMap.foldr_eq_foldr_toList]
  induction t.toList with
  | nil => rfl
  | cons entry entries ih => rw [List.foldr_cons, ih, List.map_cons]

theorem mem_values {t : Std.TreeMap String α} {a : α} :
    a ∈ t.values ↔ ∃ k : String, t[k]? = some a := by
  rw [values_eq_map_toList, List.mem_map]
  constructor
  · rintro ⟨⟨k, b⟩, hmem, rfl⟩
    exact ⟨k, Std.TreeMap.mem_toList_iff_getElem?_eq_some.mp hmem⟩
  · rintro ⟨k, hk⟩
    exact ⟨(k, a), Std.TreeMap.mem_toList_iff_getElem?_eq_some.mpr hk, rfl⟩

/-- In a table whose values stand under their own keys a look-up is a search of the values. -/
theorem lastWith_values {t : Std.TreeMap String α}
    (hkey : ∀ (k : String) (a : α), t[k]? = some a → key a = k) (k : String) :
    lastWith key k t.values = t[k]? := by
  cases hlast : lastWith key k t.values with
  | none =>
    symm
    rw [Option.eq_none_iff_forall_not_mem]
    intro a ha
    refine lastWith_eq_none_iff.mp hlast (List.mem_map.mpr ⟨a, mem_values.mpr ⟨k, ha⟩, hkey k a ha⟩)
  | some a =>
    obtain ⟨hmem, rfl⟩ := mem_of_lastWith hlast
    obtain ⟨k, hk⟩ := mem_values.mp hmem
    rw [hkey k a hk, hk]

/-- Values that stand under their own keys have distinct keys. -/
theorem nodup_map_values {t : Std.TreeMap String α}
    (hkey : ∀ (k : String) (a : α), t[k]? = some a → key a = k) : (t.values.map key).Nodup := by
  have hkeys : t.values.map key = t.toList.map Prod.fst := by
    rw [values_eq_map_toList, List.map_map]
    refine List.map_congr_left fun entry hentry => ?_
    exact hkey entry.1 entry.2 (Std.TreeMap.mem_toList_iff_getElem?_eq_some.mp hentry)
  rw [hkeys, Std.TreeMap.map_fst_toList_eq_keys]
  exact Std.TreeMap.nodup_keys

end Lookup

/-- The definition without its uses. -/
def Symbol.bare (d : Symbol) : Symbol :=
  { d with usages := [] }

namespace Scanner

section Operations

variable {s : Scanner} {path : String}

theorem mem_allSymbols {d : Symbol} : d ∈ s.allSymbols ↔ ∃ id : String, s.table[id]? = some d := by
  rw [allSymbols, List.mem_mergeSort, mem_values]

@[simp] theorem registry_clearFile (s : Scanner) (path : String) :
    (s.clearFile path).registry = s.registry := by
  unfold clearFile
  split <;> rfl

theorem registry_scanFile (s : Scanner) (file : SourceFile) (now : Int) :
    (s.scanFile file now).1.registry = s.registry := by
  unfold scanFile
  dsimp only
  split
  · exact registry_clearFile s file.path
  · exact registry_clearFile s file.path

theorem files_clearFile (s : Scanner) (path other : String) :
    (s.clearFile path).files[other]? = if other = path then none else s.files[other]? := by
  unfold clearFile
  split
  · next h =>
    by_cases hpath : other = path
    · rw [if_pos hpath, hpath, h]
    · rw [if_neg hpath]
  · by_cases hpath : other = path
    · simp [hpath]
    · simp [Std.TreeMap.getElem?_erase, hpath, Ne.symm hpath]

theorem table_clearFile (s : Scanner) (path id : String) :
    (s.clearFile path).table[id]? =
      if id ∈ s.files[path]?.getD [] then none else s.table[id]? := by
  unfold clearFile
  split
  · next h => simp [h]
  · next ids h =>
    rw [h, Option.getD_some]
    exact getElem?_foldl_erase ids s.table id

theorem files_store (s : Scanner) (path other : String) (symbols : List Symbol) (now : Int) :
    (s.store path symbols now).files[other]? =
      if other = path then some (symbols.map Symbol.id) else s.files[other]? := by
  by_cases hpath : other = path
  · simp [store, hpath]
  · simp [store, Std.TreeMap.getElem?_insert, hpath, Ne.symm hpath]

theorem table_store (s : Scanner) (path id : String) (symbols : List Symbol) (now : Int) :
    (s.store path symbols now).table[id]? = (lastWith Symbol.id id symbols).or s.table[id]? :=
  getElem?_foldl_insert Symbol.id symbols s.table id

theorem table_discoverUsages (s : Scanner) (files : List SourceFile) (id : String) :
    (s.discoverUsages files).table[id]? =
      s.table[id]?.map fun d => { d with usages := s.usagesOf (s.prepare files) d } :=
  Std.TreeMap.getElem?_map

theorem getElem?_batchTable (files : List SourceFile) (path : String) :
    (files.foldl (fun m f => m.insert f.path f) (∅ : Std.TreeMap String SourceFile))[path]? =
      lastWith SourceFile.path path files := by
  rw [getElem?_foldl_insert, Std.TreeMap.getElem?_emptyc, Option.or_none]

theorem path_of_getElem?_batchTable {files : List SourceFile} (path : String) (file : SourceFile)
    (h : (files.foldl (fun m f => m.insert f.path f)
      (∅ : Std.TreeMap String SourceFile))[path]? = some file) : file.path = path := by
  rw [getElem?_batchTable] at h
  exact (mem_of_lastWith h).2

theorem lastWith_batchFiles (files : List SourceFile) (path : String) :
    lastWith SourceFile.path path (batchFiles files) = lastWith SourceFile.path path files := by
  rw [batchFiles, lastWith_values path_of_getElem?_batchTable, getElem?_batchTable]

theorem nodup_batchFiles (files : List SourceFile) :
    ((batchFiles files).map SourceFile.path).Nodup :=
  nodup_map_values path_of_getElem?_batchTable

end Operations

/-- An operation on a session. -/
inductive Action where
  | register (extension : String) (language : Language)
  | scan (file : SourceFile) (now : Int)
  | clear (path : String)
  | batch (files : List SourceFile) (depth : ScanDepth) (now : Int)
deriving Repr, DecidableEq

/-- The session after an operation. -/
def apply (s : Scanner) : Action → Scanner
  | .register extension language => s.register extension language
  | .scan file now => (s.scanFile file now).1
  | .clear path => s.clearFile path
  | .batch files depth now => (s.processBatch files depth now 0).1

/-- The session after a run of operations. -/
def run (s : Scanner) (actions : List Action) : Scanner :=
  actions.foldl apply s

/-- The definitions that a scan of the file reads, if its extension is known. -/
def reading? (s : Scanner) (file : SourceFile) : Option (List Symbol) :=
  (s.languageFor? file.path).map fun language =>
    (language.definitions file.content file.path).symbols

/-- The files that an operation scans. -/
def Action.files : Action → List SourceFile
  | .scan file _ => [file]
  | .batch files _ _ => batchFiles files
  | _ => []

/-- The definitions that the scans of a run read. -/
def readAlong : Scanner → List Action → List Symbol
  | _, [] => []
  | s, action :: rest =>
    (action.files.flatMap fun f => (s.reading? f).getD []) ++ (s.apply action).readAlong rest

end Scanner

/-- Definitions with one id are of one file. -/
def IdsApart (symbols : List Symbol) : Prop :=
  ∀ a ∈ symbols, ∀ b ∈ symbols, a.id = b.id → a.filePath = b.filePath

instance (symbols : List Symbol) : Decidable (IdsApart symbols) :=
  inferInstanceAs (Decidable (∀ a ∈ symbols, ∀ b ∈ symbols, a.id = b.id → a.filePath = b.filePath))

namespace Scanner

theorem mem_readAlong_cons {s : Scanner} {action : Action} {rest : List Action} {d : Symbol} :
    d ∈ s.readAlong (action :: rest) ↔
      (∃ f ∈ action.files, ∃ ds, s.reading? f = some ds ∧ d ∈ ds) ∨
        d ∈ (s.apply action).readAlong rest := by
  have hread : ∀ f, d ∈ (s.reading? f).getD [] ↔ ∃ ds, s.reading? f = some ds ∧ d ∈ ds := by
    intro f
    cases s.reading? f <;> simp
  simp only [readAlong, List.mem_append, List.mem_flatMap, hread]

theorem languageFor?_congr {s s' : Scanner} (h : s.registry = s'.registry) :
    s.languageFor? = s'.languageFor? := by
  funext path
  rw [languageFor?, languageFor?, h]

theorem reading?_congr {s s' : Scanner} (h : s.registry = s'.registry) :
    s.reading? = s'.reading? := by
  funext file
  rw [reading?, reading?, languageFor?_congr h]

/-- A scan clears the file and then stores what it reads. -/
theorem scanFile_eq (s : Scanner) (file : SourceFile) (now : Int) :
    (s.scanFile file now).1 =
      match s.reading? file with
      | none => s.clearFile file.path
      | some symbols => (s.clearFile file.path).store file.path symbols now := by
  unfold scanFile reading?
  dsimp only
  rw [languageFor?_congr (registry_clearFile s file.path)]
  cases s.languageFor? file.path <;> rfl

theorem origin_of_reading? {s : Scanner} {file : SourceFile} {symbols : List Symbol}
    (h : s.reading? file = some symbols) :
    ∀ d ∈ symbols, d.filePath = file.path ∧ d.usages = [] := by
  obtain ⟨language, -, rfl⟩ := Option.map_eq_some_iff.mp h
  intro d hd
  have horigin := Language.origin_of_mem_definitions hd
  exact ⟨horigin.filePath, horigin.usages⟩

/-- What is remembered of each file: the definitions last read from it. -/
abbrev Memory : Type :=
  String → Option (List Symbol)

/-- What is remembered after a scan of the file. -/
def note (s : Scanner) (memory : Memory) (file : SourceFile) : Memory :=
  Function.update memory file.path (s.reading? file)

/-- What is remembered after an operation. -/
def remember (s : Scanner) (memory : Memory) : Action → Memory
  | .register _ _ => memory
  | .clear path => Function.update memory path none
  | .scan file _ => s.note memory file
  | .batch files _ _ => (batchFiles files).foldl s.note memory

/-- What is remembered after a run of operations. -/
def rememberAlong : Scanner → Memory → List Action → Memory
  | _, memory, [] => memory
  | s, memory, action :: rest => (s.apply action).rememberAlong (s.remember memory action) rest

/-- Every remembered definition is one of those read, from the file it is remembered for, and has no
uses. -/
def Memory.Within (memory : Memory) (read : List Symbol) : Prop :=
  ∀ path symbols, memory path = some symbols →
    ∀ d ∈ symbols, d ∈ read ∧ d.filePath = path ∧ d.usages = []

/-- The session mirrors what is remembered: the ids of each file are listed, and under an id stands,
but for its uses, the last definition with the id. -/
structure Mirrors (s : Scanner) (memory : Memory) : Prop where
  files : ∀ path : String, s.files[path]? = (memory path).map (List.map Symbol.id)
  stored : ∀ {path : String} {symbols : List Symbol}, memory path = some symbols →
    ∀ id ∈ symbols.map Symbol.id, s.table[id]?.map Symbol.bare = lastWith Symbol.id id symbols
  listed : ∀ {id : String} {d : Symbol}, s.table[id]? = some d →
    ∃ path symbols, memory path = some symbols ∧ id ∈ symbols.map Symbol.id

section Memory

variable {s : Scanner} {memory : Memory} {read : List Symbol} {path : String}

/-- An id is remembered for one file only. -/
theorem Memory.Within.path_eq (h : memory.Within read) (hread : IdsApart read) {other : String}
    {symbols others : List Symbol} {id : String} (hpath : memory path = some symbols)
    (hother : memory other = some others) (hid : id ∈ symbols.map Symbol.id)
    (hid' : id ∈ others.map Symbol.id) : path = other := by
  obtain ⟨a, ha, rfl⟩ := List.mem_map.mp hid
  obtain ⟨b, hb, hab⟩ := List.mem_map.mp hid'
  obtain ⟨haread, hafile, -⟩ := h path symbols hpath a ha
  obtain ⟨hbread, hbfile, -⟩ := h other others hother b hb
  rw [← hafile, ← hbfile]
  exact hread a haread b hbread hab.symm

theorem Memory.Within.forget (h : memory.Within read) (path : String) :
    Memory.Within (Function.update memory path none) read := by
  intro other symbols hother
  by_cases hpath : other = path
  · subst hpath
    simp at hother
  · rw [Function.update_of_ne hpath] at hother
    exact h other symbols hother

theorem Memory.Within.note (h : memory.Within read) {file : SourceFile}
    (hfile : ∀ symbols, s.reading? file = some symbols → symbols ⊆ read) :
    Memory.Within (s.note memory file) read := by
  intro other symbols hother
  unfold Scanner.note at hother
  by_cases hpath : other = file.path
  · subst hpath
    rw [Function.update_self] at hother
    intro d hd
    exact ⟨hfile symbols hother hd, origin_of_reading? hother d hd⟩
  · rw [Function.update_of_ne hpath] at hother
    exact h other symbols hother

theorem Mirrors.clearFile (h : s.Mirrors memory) (hwithin : memory.Within read)
    (hread : IdsApart read) (path : String) :
    (s.clearFile path).Mirrors (Function.update memory path none) := by
  have hids : ∀ id, id ∈ s.files[path]?.getD [] ↔
      ∃ symbols, memory path = some symbols ∧ id ∈ symbols.map Symbol.id := by
    intro id
    rw [h.files]
    cases memory path <;> simp
  refine ⟨fun other => ?_, fun {other symbols} hother id hid => ?_, fun {id d} hd => ?_⟩
  · rw [files_clearFile, h.files]
    by_cases hpath : other = path
    · simp [hpath]
    · simp [hpath]
  · have hpath : other ≠ path := by
      rintro rfl
      simp at hother
    rw [Function.update_of_ne hpath] at hother
    rw [table_clearFile, if_neg, h.stored hother id hid]
    rw [hids]
    rintro ⟨cleared, hcleared, hmem⟩
    exact hpath (hwithin.path_eq hread hother hcleared hid hmem)
  · rw [table_clearFile] at hd
    split at hd
    · cases hd
    · next hkept =>
      obtain ⟨other, symbols, hother, hid⟩ := h.listed hd
      have hpath : other ≠ path := by
        rintro rfl
        exact hkept ((hids id).mpr ⟨symbols, hother, hid⟩)
      exact ⟨other, symbols, by rw [Function.update_of_ne hpath, hother], hid⟩

theorem Mirrors.store (h : s.Mirrors memory) (hnone : memory path = none) {symbols : List Symbol}
    (hwithin : Memory.Within (Function.update memory path (some symbols)) read)
    (hread : IdsApart read) (now : Int) :
    (s.store path symbols now).Mirrors (Function.update memory path (some symbols)) := by
  have hself : Function.update memory path (some symbols) path = some symbols := by simp
  refine ⟨fun other => ?_, fun {other others} hother id hid => ?_, fun {id d} hd => ?_⟩
  · rw [files_store, h.files]
    by_cases hpath : other = path
    · simp [hpath]
    · simp [hpath]
  · rw [table_store]
    by_cases hpath : other = path
    · subst hpath
      obtain rfl : symbols = others := Option.some.inj (hself.symm.trans hother)
      cases hlast : lastWith Symbol.id id symbols with
      | none => exact absurd hid (lastWith_eq_none_iff.mp hlast)
      | some d =>
        obtain ⟨-, -, husages⟩ := hwithin other symbols hself d (mem_of_lastWith hlast).1
        simp [Symbol.bare, ← husages]
    · have hnew : lastWith Symbol.id id symbols = none := by
        rw [lastWith_eq_none_iff]
        intro hmem
        exact hpath (hwithin.path_eq hread hother hself hid hmem)
      rw [Function.update_of_ne hpath] at hother
      rw [hnew, Option.none_or, h.stored hother id hid]
  · rw [table_store] at hd
    cases hlast : lastWith Symbol.id id symbols with
    | some e =>
      obtain ⟨hmem, hid⟩ := mem_of_lastWith hlast
      exact ⟨path, symbols, hself, List.mem_map.mpr ⟨e, hmem, hid⟩⟩
    | none =>
      rw [hlast, Option.none_or] at hd
      obtain ⟨other, others, hother, hid⟩ := h.listed hd
      have hpath : other ≠ path := by
        rintro rfl
        rw [hnone] at hother
        cases hother
      exact ⟨other, others, by rw [Function.update_of_ne hpath, hother], hid⟩

theorem Mirrors.scanFile (h : s.Mirrors memory) (hwithin : memory.Within read)
    (hread : IdsApart read) {file : SourceFile}
    (hfile : ∀ symbols, s.reading? file = some symbols → symbols ⊆ read) (now : Int) :
    (s.scanFile file now).1.Mirrors (s.note memory file) := by
  have hcleared := h.clearFile hwithin hread file.path
  have hnoted := hwithin.note hfile
  rw [scanFile_eq]
  unfold note at hnoted ⊢
  cases hreading : s.reading? file with
  | none => exact hcleared
  | some symbols =>
    have hupdate : Function.update (Function.update memory file.path none) file.path (some symbols) =
        Function.update memory file.path (some symbols) := Function.update_idem ..
    rw [hreading, ← hupdate] at hnoted
    rw [← hupdate]
    exact hcleared.store (Function.update_self ..) hnoted hread now

theorem Mirrors.discoverUsages (h : s.Mirrors memory) (files : List SourceFile) :
    (s.discoverUsages files).Mirrors memory := by
  refine ⟨h.files, fun {path symbols} hpath id hid => ?_, fun {id d} hd => ?_⟩
  · rw [table_discoverUsages, Option.map_map, ← h.stored hpath id hid]
    rfl
  · rw [table_discoverUsages] at hd
    obtain ⟨e, he, -⟩ := Option.map_eq_some_iff.mp hd
    exact h.listed he

/-- Files scanned one after the other are remembered one after the other. -/
theorem Mirrors.scanFiles (h : s.Mirrors memory) (hwithin : memory.Within read)
    (hread : IdsApart read) {files : List SourceFile}
    (hfiles : ∀ f ∈ files, ∀ symbols, s.reading? f = some symbols → symbols ⊆ read) (now : Int) :
    (files.foldl (fun s f => (s.scanFile f now).1) s).Mirrors (files.foldl s.note memory) ∧
      Memory.Within (files.foldl s.note memory) read := by
  induction files generalizing s memory with
  | nil => exact ⟨h, hwithin⟩
  | cons file files ih =>
    have hfile := hfiles file List.mem_cons_self
    have hreading := reading?_congr (registry_scanFile s file now)
    have hnote : (s.scanFile file now).1.note = s.note := by
      funext memory file
      rw [note, note, hreading]
    have hrest := ih (h.scanFile hwithin hread hfile now) (hwithin.note hfile) fun f hf => by
      rw [hreading]
      exact hfiles f (List.mem_cons_of_mem file hf)
    rwa [hnote] at hrest

/-- What an operation does to the session it does to what is remembered. -/
theorem Mirrors.apply (h : s.Mirrors memory) (hwithin : memory.Within read)
    (hread : IdsApart read) {action : Action}
    (hfiles : ∀ f ∈ action.files, ∀ symbols, s.reading? f = some symbols → symbols ⊆ read) :
    (s.apply action).Mirrors (s.remember memory action) ∧
      Memory.Within (s.remember memory action) read := by
  cases action with
  | register extension language => exact ⟨⟨h.files, h.stored, h.listed⟩, hwithin⟩
  | scan file now =>
    have hfile := hfiles file List.mem_cons_self
    exact ⟨h.scanFile hwithin hread hfile now, hwithin.note hfile⟩
  | clear path => exact ⟨h.clearFile hwithin hread path, hwithin.forget path⟩
  | batch files depth now =>
    obtain ⟨hmirrors, hnoted⟩ := h.scanFiles hwithin hread hfiles now
    refine ⟨?_, hnoted⟩
    cases depth with
    | deep => exact hmirrors.discoverUsages (batchFiles files)
    | basic => exact hmirrors

/-- A session mirrors what is remembered after every run in which no two files share an id. -/
theorem Mirrors.run (h : s.Mirrors memory) (hwithin : memory.Within read) (hread : IdsApart read)
    {actions : List Action} (hactions : s.readAlong actions ⊆ read) :
    (s.run actions).Mirrors (s.rememberAlong memory actions) ∧
      Memory.Within (s.rememberAlong memory actions) read := by
  induction actions generalizing s memory with
  | nil => exact ⟨h, hwithin⟩
  | cons action rest ih =>
    have hfiles : ∀ f ∈ action.files, ∀ symbols, s.reading? f = some symbols → symbols ⊆ read :=
      fun f hf symbols hsymbols d hd =>
        hactions (mem_readAlong_cons.mpr (Or.inl ⟨f, hf, symbols, hsymbols, hd⟩))
    obtain ⟨hmirrors, hremembered⟩ := h.apply hwithin hread hfiles
    exact ih hmirrors hremembered fun d hd => hactions (mem_readAlong_cons.mpr (Or.inr hd))

theorem mirrors_empty (registry : Std.TreeMap String Language) :
    Mirrors { registry := registry } fun _ => none := by
  refine ⟨fun _ => ?_, fun h => ?_, fun h => ?_⟩
  · simp
  · cases h
  · simp at h

end Memory

/-- The table and the lists of ids by file are mirror images: a definition stands under its own id,
its id is listed for its file, and what is listed for a file is stored as a definition of it. -/
structure Consistent (s : Scanner) : Prop where
  key : ∀ {id : String} {d : Symbol}, s.table[id]? = some d → d.id = id
  listed : ∀ {id : String} {d : Symbol}, s.table[id]? = some d →
    ∃ ids, s.files[d.filePath]? = some ids ∧ id ∈ ids
  stored : ∀ {path : String} {ids : List String}, s.files[path]? = some ids →
    ∀ id ∈ ids, ∃ d, s.table[id]? = some d ∧ d.filePath = path

section Consistent

variable {s : Scanner} {path : String} {d : Symbol}

theorem Mirrors.consistent {memory : Memory} {read : List Symbol} (h : s.Mirrors memory)
    (hwithin : memory.Within read) : s.Consistent := by
  have hlast : ∀ {id : String} {d : Symbol}, s.table[id]? = some d → ∃ path symbols,
      memory path = some symbols ∧ id ∈ symbols.map Symbol.id ∧ d.id = id ∧ d.filePath = path := by
    intro id d hd
    obtain ⟨path, symbols, hpath, hid⟩ := h.listed hd
    have hstored := h.stored hpath id hid
    rw [hd, Option.map_some] at hstored
    obtain ⟨hmem, hkey⟩ := mem_of_lastWith hstored.symm
    exact ⟨path, symbols, hpath, hid, hkey, (hwithin path symbols hpath _ hmem).2.1⟩
  refine ⟨fun hd => ?_, fun {id d} hd => ?_, fun {path ids} hpath id hid => ?_⟩
  · obtain ⟨-, -, -, -, hkey, -⟩ := hlast hd
    exact hkey
  · obtain ⟨path, symbols, hpath, hid, -, rfl⟩ := hlast hd
    exact ⟨symbols.map Symbol.id, by rw [h.files, hpath]; rfl, hid⟩
  · rw [h.files] at hpath
    obtain ⟨symbols, hsymbols, rfl⟩ := Option.map_eq_some_iff.mp hpath
    have hstored := h.stored hsymbols id hid
    cases hfound : s.table[id]? with
    | none =>
      rw [hfound] at hstored
      exact absurd hid (lastWith_eq_none_iff.mp hstored.symm)
    | some d =>
      rw [hfound, Option.map_some] at hstored
      have hmem := (mem_of_lastWith hstored.symm).1
      exact ⟨d, rfl, (hwithin path symbols hsymbols _ hmem).2.1⟩

/-- The definitions listed for a file are all definitions of the file. -/
theorem Consistent.mem_symbolsIn (h : s.Consistent) :
    d ∈ s.symbolsIn path ↔ d ∈ s.allSymbols ∧ d.filePath = path := by
  rw [symbolsIn, List.mem_mergeSort, Scanner.listed, List.mem_filterMap, mem_allSymbols]
  constructor
  · rintro ⟨id, hid, hd⟩
    refine ⟨⟨id, hd⟩, ?_⟩
    cases hpath : s.files[path]? with
    | none => simp [hpath] at hid
    | some ids =>
      rw [hpath, Option.getD_some] at hid
      obtain ⟨e, he, hfile⟩ := h.stored hpath id hid
      obtain rfl : d = e := Option.some.inj (hd.symm.trans he)
      exact hfile
  · rintro ⟨⟨id, hd⟩, rfl⟩
    obtain ⟨ids, hids, hid⟩ := h.listed hd
    exact ⟨id, by rwa [hids, Option.getD_some], hd⟩

/-- Clearing a file removes its definitions and no others. -/
theorem Consistent.mem_allSymbols_clearFile (h : s.Consistent) :
    d ∈ (s.clearFile path).allSymbols ↔ d ∈ s.allSymbols ∧ d.filePath ≠ path := by
  have hids : ∀ {id : String}, s.table[id]? = some d →
      (id ∈ s.files[path]?.getD [] ↔ d.filePath = path) := by
    intro id hd
    constructor
    · intro hid
      have hmem : d ∈ s.symbolsIn path :=
        List.mem_mergeSort.mpr (List.mem_filterMap.mpr ⟨id, hid, hd⟩)
      exact (h.mem_symbolsIn.mp hmem).2
    · rintro rfl
      obtain ⟨ids, hfile, hid⟩ := h.listed hd
      rwa [hfile, Option.getD_some]
  simp only [mem_allSymbols, table_clearFile]
  constructor
  · rintro ⟨id, hd⟩
    split at hd
    · cases hd
    · next hid => exact ⟨⟨id, hd⟩, fun hfile => hid ((hids hd).mpr hfile)⟩
  · rintro ⟨⟨id, hd⟩, hfile⟩
    exact ⟨id, by rw [if_neg fun hid => hfile ((hids hd).mp hid), hd]⟩

end Consistent

/-- In every session that starts empty or with the usual extensions, after any run in which no two
files share an id, the table and the lists of ids are mirror images. So the definitions listed for a
file are those of the table that name it, and clearing the file removes just these. -/
theorem consistent_run {start : Scanner} (hstart : start = {} ∨ start = withDefaults)
    (actions : List Action) (hread : IdsApart (start.readAlong actions)) :
    (start.run actions).Consistent ∧
      (∀ path d, d ∈ (start.run actions).symbolsIn path ↔
        d ∈ (start.run actions).allSymbols ∧ d.filePath = path) ∧
      ∀ path d, d ∈ ((start.run actions).clearFile path).allSymbols ↔
        d ∈ (start.run actions).allSymbols ∧ d.filePath ≠ path := by
  have hempty : start.Mirrors fun _ => none := by
    rcases hstart with rfl | rfl
    · exact mirrors_empty ∅
    · exact mirrors_empty withDefaults.registry
  have hnone : Memory.Within (fun _ => none) (start.readAlong actions) := by
    intro path symbols h
    cases h
  obtain ⟨hmirrors, hwithin⟩ := hempty.run hnone hread (List.Subset.refl _)
  have hconsistent := hmirrors.consistent hwithin
  exact ⟨hconsistent, fun _ _ => hconsistent.mem_symbolsIn,
    fun _ _ => hconsistent.mem_allSymbols_clearFile⟩

/-- A file is scanned twice and shrinks, it grows again in a batch, and a file of a language that is
not known is cleared. -/
def shrinkingRun : List Action :=
  [.register ".INC" .javascript,
    .scan ⟨"a.js", "function f() {}\n"⟩ 0,
    .scan ⟨"a.js", "f();\n"⟩ 1,
    .batch [⟨"b.inc", "function g() {}\n"⟩, ⟨"c.txt", "g();\n"⟩,
      ⟨"a.js", "function f() {}\ng();\n"⟩] .deep 2,
    .clear "c.txt"]

theorem consistent_run_shrinking :
    IdsApart (withDefaults.readAlong shrinkingRun) ∧
      (withDefaults.run shrinkingRun).symbolCount = 2 ∧
      (withDefaults.run shrinkingRun).Consistent := by
  have hread : IdsApart (withDefaults.readAlong shrinkingRun) := by decide +kernel
  have hcount : (withDefaults.run shrinkingRun).symbolCount = 2 := by decide +kernel
  exact ⟨hread, hcount, (consistent_run (Or.inr rfl) shrinkingRun hread).1⟩

end Scanner

end Concordance
