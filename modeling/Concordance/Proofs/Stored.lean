import Concordance.Project.Store
import Concordance.Proofs.Digest
import Concordance.Proofs.FileTree.Write
import Concordance.Proofs.Json.Readers

/-!
A stored scan result is read back.

Each record of a scan is taken from its written form by the reader of its kind (`takes_read`), one
lemma a record, from the place in a text up to the whole result. Main statement: `load_save`, what was
saved is loaded again, without the diagnostics.
-/

namespace Concordance

open Json Text

section Bounds

/-- The counts of a range are 64-bit numbers. -/
def Range.Fits (r : Range) : Prop :=
  r.start.Fits ∧ r.stop.Fits

/-- The counts of a use are 64-bit numbers. -/
def Usage.Fits (u : Usage) : Prop :=
  u.position.Fits ∧ u.range.Fits

/-- The counts of a definition and of its uses are 64-bit numbers. -/
def Symbol.Fits (s : Symbol) : Prop :=
  s.position.Fits ∧ s.range.Fits ∧ ∀ u ∈ s.usages, u.Fits

/-- All counts of a scan are 64-bit numbers. -/
structure ScanResult.Fits (r : ScanResult) : Prop where
  symbols : ∀ s ∈ r.symbols, s.Fits
  scanTime : r.scanTime < UInt64.size
  filesScanned : r.filesScanned < UInt64.size
  symbolsFound : r.symbolsFound < UInt64.size
  usagesFound : r.usagesFound < UInt64.size

end Bounds

section Records

theorem takes_readCount_of_lt {n : Nat} (hn : n < UInt64.size) (expected : String) :
    Takes (readCount expected) (.number n) n :=
  takes_readCount (Nat.le_of_lt_succ hn) expected

theorem Position.takes_read {p : Position} (h : p.Fits) : Takes Position.read p.toJson p := by
  refine takes_readRecord _ ?_ (by simp) (by simp [Field.of]) (by simp)
  exact .cons _ rfl (takes_readCount_of_lt h.line _).field <|
    .cons _ rfl (takes_readCount_of_lt h.character _).field (.nil _)

theorem Range.takes_read {r : Range} (h : r.Fits) : Takes Range.read r.toJson r := by
  refine takes_readRecord _ ?_ (by simp) (by simp [Field.of]) (by simp)
  exact .cons _ rfl (Position.takes_read h.1).field <|
    .cons _ rfl (Position.takes_read h.2).field (.nil _)

theorem UsageKind.takes_read (kind : UsageKind) : Takes UsageKind.read (.text kind.name) kind :=
  takes_readChoice (by cases kind <;> rfl)

theorem SymbolKind.takes_read (kind : SymbolKind) : Takes SymbolKind.read (.text kind.name) kind :=
  takes_readChoice (by cases kind <;> rfl)

theorem Usage.takes_read {u : Usage} (h : u.Fits) : Takes Usage.read u.toJson u := by
  refine takes_readRecord _ ?_ (by simp) (by simp [Field.of]) (by simp)
  exact .cons _ rfl (takes_readText _).field <|
    .cons _ rfl (Position.takes_read h.1).field <|
    .cons _ rfl (Range.takes_read h.2).field <|
    .cons _ rfl (takes_readText _).field <|
    .cons _ rfl (UsageKind.takes_read _).field (.nil _)

/-- Lists of records are read when each record is. -/
theorem takes_readList_map {α : Type} {read : Reader α} {toJson : α → Json} {as : List α}
    (h : ∀ a ∈ as, Takes read (toJson a) a) : Takes (readList read) (.list (as.map toJson)) as := by
  refine takes_readList ?_
  rw [List.forall₂_map_left_iff]
  exact List.forall₂_same.mpr h

/-- A field that may be left out is filled with what it was written for, if the record has nothing
there yet. -/
theorem fills_optionalField {σ : Type} {fields : List (Json.Field σ)} {name : String} {needed : Bool}
    {s : σ} (put : σ → Option String → σ) (value : Option String)
    (hfield : fields.find? (·.name == name) = some (.of name needed (readOptional readText) put))
    (hnone : put s none = s) : Fills fields s (optionalField name value) (put s value) := by
  cases value with
  | none => rw [hnone]; exact .nil s
  | some text => exact .cons _ hfield (takes_readText text).readOptional.field (.nil _)

theorem Symbol.takes_read {s : Symbol} (h : s.Fits) : Takes Symbol.read s.toJson s := by
  obtain ⟨hposition, hrange, husages⟩ := h
  refine takes_readRecord _ ?_ ?_ ?_ (by simp)
  · refine .append (t := { s with usages := [] })
      (.append (t := { s with documentation := none, usages := [] })
        (.append (t := { s with container := none, documentation := none, usages := [] }) ?_ ?_) ?_) ?_
    · exact .cons _ rfl (takes_readText _).field <|
        .cons _ rfl (takes_readText _).field <|
        .cons _ rfl (SymbolKind.takes_read _).field <|
        .cons _ rfl (takes_readText _).field <|
        .cons _ rfl (Position.takes_read hposition).field <|
        .cons _ rfl (Range.takes_read hrange).field (.nil _)
    · exact fills_optionalField (fun (d : Symbol) c => { d with container := c }) s.container rfl rfl
    · exact fills_optionalField (fun (d : Symbol) c => { d with documentation := c }) s.documentation rfl rfl
    · exact .cons _ rfl (takes_readList_map fun u hu => Usage.takes_read (husages u hu)).field (.nil _)
  · cases s.container <;> cases s.documentation <;> simp [optionalField]
  · simp [Field.of]

theorem ScanResult.takes_read {r : ScanResult} (h : r.Fits) :
    Takes ScanResult.read r.toJson { r with diagnostics := [] } := by
  refine takes_readRecord _ ?_ (by simp) (by simp [Field.of]) (by simp)
  exact .cons _ rfl (takes_readList_map fun s hs => Symbol.takes_read (h.symbols s hs)).field <|
    .cons _ rfl (takes_readCount_of_lt h.scanTime _).field <|
    .cons _ rfl (takes_readCount_of_lt h.filesScanned _).field <|
    .cons _ rfl (takes_readCount_of_lt h.symbolsFound _).field <|
    .cons _ rfl (takes_readCount_of_lt h.usagesFound _).field (.nil _)

end Records

theorem ScanResult.ofStored_stored {r : ScanResult} (h : r.Fits) :
    ScanResult.ofStored r.stored = .ok { r with diagnostics := [] } :=
  (ScanResult.takes_read h).parse_pretty

theorem ScanResult.readText_save {r : ScanResult} {fs after : FileSystem} {path : String}
    (h : r.save fs path = (after, .ok ())) :
    after.hasNode path = true ∧ after.readText path = .ok (String.ofList r.stored) := by
  unfold ScanResult.save at h
  split at h
  · cases h
  split at h
  · cases h
  · next hwrite =>
    cases h
    exact FileSystem.readText_writeText hwrite

/-- The stored text of a scan is read as the scan without its diagnostics, and so is the file that it
was saved to, whatever files and links there are. -/
theorem ScanResult.load_save (r : ScanResult) (h : r.Fits) :
    ScanResult.ofStored r.stored = .ok { r with diagnostics := [] } ∧
      ∀ (fs after : FileSystem) (path : String), r.save fs path = (after, .ok ()) →
        ScanResult.load after path = .ok { r with diagnostics := [] } := by
  have hstored := ScanResult.ofStored_stored h
  refine ⟨hstored, fun fs after path hsave => ?_⟩
  obtain ⟨hnode, hread⟩ := ScanResult.readText_save hsave
  simp [ScanResult.load, hnode, hread, hstored]

section Sample

/-- A use whose context has every kind of character that is escaped. -/
private def sampleUsage : Usage :=
  ⟨"b.js", ⟨1, 0⟩, ⟨⟨1, 0⟩, ⟨1, 2⟩⟩, "say(\"\\\t\x08\x0c\x01\") // 😀\n", .call⟩

/-- A scan with the largest counts and with a container but no documentation. -/
private def sampleScan : ScanResult where
  symbols := [⟨"0f", "say\r", .method, "a.js", ⟨0xffffffffffffffff, 0⟩, default, some "C",
    none, [sampleUsage]⟩]
  scanTime := 0xffffffffffffffff
  filesScanned := 2
  symbolsFound := 1
  usagesFound := 1
  diagnostics := [.skipped "c.txt" .unsupportedLanguage]

/-- An empty directory. -/
private def sampleFiles : FileSystem :=
  ⟨.emptyDirectory, []⟩

/-- The directory with a stored scan in it. -/
private def savedFiles (r : ScanResult) : FileSystem :=
  sampleFiles.putText ["scan.json".toList] (String.ofList r.stored)

private theorem save_sampleFiles (r : ScanResult) :
    r.save sampleFiles "scan.json" = (savedFiles r, .ok ()) := by
  have hparent : sampleFiles.ensureParent "scan.json" = .ok sampleFiles := by
    have hnone : parentPath? "scan.json" = none := by decide
    unfold FileSystem.ensureParent
    rw [hnone]
  have hsteps : FileSystem.steps "scan.json".toList = ["scan.json".toList] := by decide
  have hresolve : sampleFiles.resolve .make "scan.json" = .ok (.missing [] "scan.json".toList) := by
    rw [FileSystem.resolve, if_neg (by decide), FileSystem.follow, if_neg (by decide), hsteps,
      FileSystem.walk_cons]
    decide
  unfold ScanResult.save
  simp only [hparent, FileSystem.writeText, hresolve]
  rfl

theorem ScanResult.load_save_sampleScan :
    ScanResult.ofStored sampleScan.stored = .ok { sampleScan with diagnostics := [] } ∧
      sampleScan.save sampleFiles "scan.json" = (savedFiles sampleScan, .ok ()) ∧
      ScanResult.load (savedFiles sampleScan) "scan.json" = .ok { sampleScan with diagnostics := [] } := by
  have hfits : sampleScan.Fits := by
    refine ⟨?_, by decide, by decide, by decide, by decide⟩
    intro s hs
    obtain rfl := List.mem_singleton.mp hs
    refine ⟨⟨by decide, by decide⟩, ⟨⟨by decide, by decide⟩, by decide, by decide⟩, ?_⟩
    intro u hu
    obtain rfl := List.mem_singleton.mp hu
    exact ⟨⟨by decide, by decide⟩, ⟨by decide, by decide⟩, by decide, by decide⟩
  obtain ⟨hstored, hload⟩ := ScanResult.load_save sampleScan hfits
  have hsave := save_sampleFiles sampleScan
  exact ⟨hstored, hsave, hload _ _ _ hsave⟩

end Sample

end Concordance
