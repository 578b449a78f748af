import Concordance.Proofs.Reference.Uses
import Concordance.Proofs.Scanner.Table
import Concordance.Proofs.Text.Order

/-!
The uses in a session: in order of file and line, one for a line, and none where the symbol itself is
defined.

Each operation keeps this (`UsesInOrder.apply`): a scan stores definitions without uses, and a deep
batch sorts what it finds in files of distinct paths. Main statement: `usesInOrder_run_and_standsIn`.
-/

namespace Concordance

section Order

theorem siteUpTo_iff {fileA fileB : String} {a b : Position} :
    siteUpTo fileA a fileB b = true ↔ fileA < fileB ∨ fileA = fileB ∧ a.upTo b = true := by
  simp [siteUpTo]

instance : IsTrans Position fun p q => p.upTo q = true :=
  ⟨fun _ _ _ => Position.upTo_trans⟩

instance : Std.Total fun p q : Position => p.upTo q = true :=
  ⟨Position.upTo_total⟩

theorem Usage.upTo_iff_lex (a b : Usage) :
    a.upTo b = true ↔
      Prod.Lex (· < ·) (fun p q : Position => p.upTo q = true) (a.filePath, a.position)
        (b.filePath, b.position) := by
  rw [Usage.upTo, siteUpTo_iff, Prod.lex_iff]

theorem Usage.upTo_trans (a b c : Usage) :
    a.upTo b = true → b.upTo c = true → a.upTo c = true :=
  Text.trans_of_lex Usage.upTo_iff_lex a b c

theorem Usage.upTo_total (a b : Usage) : (a.upTo b || b.upTo a) = true :=
  Text.total_of_lex Usage.upTo_iff_lex a b

/-- The use is in an earlier file, or on an earlier line of the same file. -/
def Usage.Before (a b : Usage) : Prop :=
  a.filePath < b.filePath ∨ a.filePath = b.filePath ∧ a.position.line < b.position.line

theorem Usage.before_of_upTo {a b : Usage} (h : a.upTo b = true)
    (hne : a.filePath = b.filePath → a.position.line ≠ b.position.line) : a.Before b := by
  rw [Usage.upTo, siteUpTo_iff] at h
  refine h.imp id ?_
  rintro ⟨hfile, hplace⟩
  refine ⟨hfile, ?_⟩
  have hline := hne hfile
  simp only [Position.upTo, Bool.or_eq_true, Bool.and_eq_true, decide_eq_true_eq, beq_iff_eq]
    at hplace
  omega

end Order

/-- The uses of the symbol are in order of file and line, one for a line, and none is on the line that
defines it. -/
structure Symbol.UsesInOrder (d : Symbol) : Prop where
  increasing : d.usages.Pairwise Usage.Before
  elsewhere : ∀ u ∈ d.usages, ¬ (u.filePath = d.filePath ∧ u.position.line = d.position.line)

theorem Symbol.usesInOrder_of_nil {d : Symbol} (h : d.usages = []) : d.UsesInOrder := by
  constructor
  · rw [h]
    exact List.Pairwise.nil
  · rw [h]
    exact fun u hu => absurd hu List.not_mem_nil

namespace Scanner

section Search

variable {s : Scanner} {prepared : List PreparedFile} {d : Symbol} {u : Usage}

theorem exists_of_mem_usagesOf (h : u ∈ s.usagesOf prepared d) :
    ∃ f ∈ prepared, u ∈ f.language.usagesIn f.source f.path d := by
  unfold usagesOf at h
  split at h
  · cases h
  · obtain ⟨f, hf, hu⟩ := List.mem_flatMap.mp (List.mem_mergeSort.mp h)
    split at hu
    · exact ⟨f, hf, hu⟩
    · cases hu

/-- The uses found in files of distinct paths are in order, one for a line. -/
theorem pairwise_usagesOf (hpaths : prepared.Pairwise fun f g => f.path ≠ g.path) (d : Symbol) :
    (s.usagesOf prepared d).Pairwise Usage.Before := by
  unfold usagesOf
  split
  · exact List.Pairwise.nil
  · next origin _ =>
    let found (f : PreparedFile) : List Usage :=
      if f.language.accepts origin d.kind then f.language.usagesIn f.source f.path d else []
    have hfile : ∀ f, ∀ u ∈ found f, u.filePath = f.path := by
      intro f u hu
      unfold found at hu
      split at hu
      · exact (Language.filePath_of_mem_usagesIn hu).1
      · cases hu
    have hline : ∀ f, (found f).Pairwise fun a b => a.position.line ≠ b.position.line := by
      intro f
      unfold found
      split
      · exact f.language.pairwise_usagesIn f.source f.path d
      · exact List.Pairwise.nil
    have hdistinct : (prepared.flatMap found).Pairwise fun a b =>
        a.filePath = b.filePath → a.position.line ≠ b.position.line := by
      refine List.pairwise_flatMap.mpr ⟨fun f _ => ?_, ?_⟩
      · exact (hline f).imp fun {a b} hab (_ : a.filePath = b.filePath) => hab
      · refine hpaths.imp fun {f g} hfg a ha b hb hab => ?_
        exact absurd ((hfile f a ha).symm.trans (hab.trans (hfile g b hb))) hfg
    have hsorted := List.pairwise_mergeSort Usage.upTo_trans Usage.upTo_total (prepared.flatMap found)
    have hkept := (List.Perm.pairwise_iff (fun h hab => (h hab.symm).symm)
      (List.mergeSort_perm (prepared.flatMap found) Usage.upTo)).mpr hdistinct
    exact hsorted.imp₂ (fun _ _ => Usage.before_of_upTo) hkept

theorem pairwise_prepare (s : Scanner) {files : List SourceFile}
    (hpaths : (files.map SourceFile.path).Nodup) :
    (s.prepare files).Pairwise fun f g => f.path ≠ g.path := by
  refine List.pairwise_filterMap.mpr ((List.pairwise_map.mp hpaths).imp ?_)
  intro f g hfg f' hf' g' hg'
  obtain ⟨language, -, rfl⟩ := Option.map_eq_some_iff.mp hf'
  obtain ⟨language', -, rfl⟩ := Option.map_eq_some_iff.mp hg'
  exact hfg

theorem usesInOrder_usagesOf (s : Scanner) {files : List SourceFile}
    (hpaths : (files.map SourceFile.path).Nodup) (d : Symbol) :
    Symbol.UsesInOrder { d with usages := s.usagesOf (s.prepare files) d } := by
  refine ⟨pairwise_usagesOf (pairwise_prepare s hpaths) d, fun u hu => ?_⟩
  obtain ⟨f, -, hu⟩ := exists_of_mem_usagesOf hu
  obtain ⟨hfile, hsite⟩ := Language.filePath_of_mem_usagesIn hu
  rintro ⟨hsame, hline⟩
  simp [Symbol.isDefinitionSite, ← hfile, hsame, hline] at hsite

end Search

/-- The uses of every definition in the table are in order. -/
def UsesInOrder (s : Scanner) : Prop :=
  ∀ ⦃id : String⦄ ⦃d : Symbol⦄, s.table[id]? = some d → d.UsesInOrder

section Run

variable {s : Scanner}

theorem UsesInOrder.clearFile (h : s.UsesInOrder) (path : String) :
    (s.clearFile path).UsesInOrder := by
  intro id d hd
  rw [table_clearFile] at hd
  split at hd
  · cases hd
  · exact h hd

theorem UsesInOrder.store (h : s.UsesInOrder) (path : String) {symbols : List Symbol}
    (hsymbols : ∀ d ∈ symbols, d.usages = []) (now : Int) :
    (s.store path symbols now).UsesInOrder := by
  intro id d hd
  rw [table_store, Option.or_eq_some_iff] at hd
  rcases hd with hd | ⟨-, hd⟩
  · exact Symbol.usesInOrder_of_nil (hsymbols d (mem_of_lastWith hd).1)
  · exact h hd

theorem UsesInOrder.scanFile (h : s.UsesInOrder) (file : SourceFile) (now : Int) :
    (s.scanFile file now).1.UsesInOrder := by
  rw [scanFile_eq]
  split
  · exact h.clearFile file.path
  · next symbols hread =>
    exact (h.clearFile file.path).store file.path (fun d hd => (origin_of_reading? hread d hd).2) now

theorem UsesInOrder.scanBatch (h : s.UsesInOrder) (files : List SourceFile) (depth : ScanDepth)
    (now : Int) : (s.scanBatch files depth now).UsesInOrder := by
  cases depth with
  | deep =>
    intro id d hd
    rw [Scanner.scanBatch, table_discoverUsages] at hd
    obtain ⟨e, -, rfl⟩ := Option.map_eq_some_iff.mp hd
    exact usesInOrder_usagesOf _ (nodup_batchFiles files) e
  | basic =>
    refine List.foldlRecOn (batchFiles files) _ h fun t ht f _ => ?_
    exact ht.scanFile f now

/-- Every operation keeps the uses in order. -/
theorem UsesInOrder.apply (h : s.UsesInOrder) (action : Action) : (s.apply action).UsesInOrder := by
  cases action with
  | register extension language => exact h
  | scan file now => exact h.scanFile file now
  | clear path => exact h.clearFile path
  | batch files depth now => exact h.scanBatch files depth now

theorem UsesInOrder.run (h : s.UsesInOrder) (actions : List Action) :
    (s.run actions).UsesInOrder := by
  induction actions generalizing s with
  | nil => exact h
  | cons action rest ih => exact ih (h.apply action)

theorem usesInOrder_empty (registry : Std.TreeMap String Language) :
    UsesInOrder { registry := registry } := by
  intro id d hd
  simp at hd

end Run

end Scanner

/-- In every session that starts empty or with the usual extensions, after any run of operations, the
uses of every definition are strictly increasing by file and line, and none is on the line that defines
it. Each single search finds only uses that start in the text between two characters and outside all
comments, whose range goes on from their place, and whose context is their line, trimmed. -/
theorem usesInOrder_run_and_standsIn :
    (∀ start : Scanner, start = {} ∨ start = Scanner.withDefaults → ∀ actions,
      ∀ d ∈ (start.run actions).allSymbols, d.UsesInOrder) ∧
    ∀ (language : Language) (content path : String) (symbol : Symbol),
      ∀ u ∈ language.usages content path symbol, u.filePath = path ∧
        ∃ offset, u.StandsIn (language.source content) offset := by
  refine ⟨fun start hstart actions d hd => ?_, fun language content path symbol u hu => ?_⟩
  · have hempty : start.UsesInOrder := by
      rcases hstart with rfl | rfl
      · exact Scanner.usesInOrder_empty ∅
      · exact Scanner.usesInOrder_empty Scanner.withDefaults.registry
    obtain ⟨id, hid⟩ := Scanner.mem_allSymbols.mp hd
    exact hempty.run actions hid
  · exact ⟨(Language.filePath_of_mem_usagesIn hu).1, Language.standsIn_of_mem_usagesIn hu⟩

/-- A text that uses a function behind a comment. -/
def usingText : String :=
  "/* f */ f();\n"

/-- The function that it uses. -/
def usedFunction : Symbol :=
  { (default : Symbol) with name := "f", kind := .function, filePath := "a.js" }

theorem usesInOrder_usingText :
    (∃ d ∈ (Scanner.withDefaults.run [.batch [⟨"a.js", "function f() {}\n"⟩] .basic 0,
        .batch [⟨"b.js", usingText⟩] .deep 1]).allSymbols, d.usages.length = 1 ∧ d.UsesInOrder) ∧
      ∃ u ∈ Language.javascript.usages usingText "b.js" usedFunction, u.position = ⟨0, 8⟩ ∧
        ∃ offset, u.StandsIn (Language.javascript.source usingText) offset := by
  obtain ⟨hrun, hsearch⟩ := usesInOrder_run_and_standsIn
  constructor
  · have hlength : (Scanner.withDefaults.run [.batch [⟨"a.js", "function f() {}\n"⟩] .basic 0,
        .batch [⟨"b.js", usingText⟩] .deep 1]).allSymbols.map (·.usages.length) = [1] := by
      decide +kernel
    obtain ⟨d, hall, hone⟩ := List.map_eq_singleton_iff.mp hlength
    have hd := hall ▸ List.mem_singleton_self d
    exact ⟨d, hd, hone, hrun _ (Or.inr rfl) _ d hd⟩
  · have hplaces : (Language.javascript.usages usingText "b.js" usedFunction).map
        (·.position) = [⟨0, 8⟩] := by
      decide +kernel
    obtain ⟨u, hall, hplace⟩ := List.map_eq_singleton_iff.mp hplaces
    have hu := hall ▸ List.mem_singleton_self u
    exact ⟨u, hu, hplace, (hsearch _ _ _ _ u hu).2⟩

end Concordance
