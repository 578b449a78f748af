import Std.Data.TreeMap
import Concordance.Diagnostic
import Concordance.Reading

/-!
A session of scans: which extension is read as which language, the definitions found so far and
the files they were found in.

Scanning a file replaces its definitions. A batch scans its files in the order of their paths and
then, if it is deep, finds the uses of every known definition anew in the files of the batch. So
neither the order of earlier scans nor a repeated batch leaves a trace.
-/

namespace Concordance

/-- A file to scan. -/
structure SourceFile where
  path : String
  content : String
deriving Repr, DecidableEq

/-- How far a scan goes. -/
inductive ScanDepth where
  /-- Definitions and their uses. -/
  | deep
  /-- Definitions only. -/
  | basic
deriving Repr, DecidableEq, Inhabited

namespace ScanDepth

/-- The name of a depth. -/
def name : ScanDepth → String
  | .deep => "deep"
  | .basic => "basic"

/-- Every depth. -/
def every : List ScanDepth :=
  [.deep, .basic]

/-- The depth with the name. -/
def ofName? (name : String) : Option ScanDepth :=
  every.find? (·.name == name)

end ScanDepth

/-- What a batch found. -/
structure ScanResult where
  /-- Every known definition, by file and place. -/
  symbols : List Symbol := []
  /-- Milliseconds that the scan took. -/
  scanTime : Nat := 0
  filesScanned : Nat := 0
  symbolsFound : Nat := 0
  usagesFound : Nat := 0
  /-- What went wrong with single files; this is not stored. -/
  diagnostics : List Diagnostic := []
deriving Repr, DecidableEq

/-- A session of scans. -/
structure Scanner where
  /-- The language of each extension. -/
  registry : Std.TreeMap String Language := {}
  /-- The definitions by their ids. -/
  table : Std.TreeMap String Symbol := {}
  /-- The ids of each scanned file, in reading order. -/
  files : Std.TreeMap String (List String) := {}
  /-- When each file was last scanned, in milliseconds. -/
  stamps : Std.TreeMap String Int := {}

namespace Scanner

/-- The session with the extension read as the language. -/
def register (s : Scanner) (extension : String) (language : Language) : Scanner :=
  { s with registry := s.registry.insert (normalizeExtension extension) language }

/-- A session in which the usual extensions are known. -/
def withDefaults : Scanner :=
  Language.defaultExtensions.foldl (fun s e => s.register e.1 e.2) {}

/-- The known extensions in order. -/
def extensions (s : Scanner) : List String :=
  s.registry.keys

/-- The language that a file is read as. -/
def languageFor? (s : Scanner) (path : String) : Option Language :=
  (extensionOf? path).bind fun e => s.registry[e]?

/-- The session without the definitions of the file. -/
def clearFile (s : Scanner) (path : String) : Scanner :=
  match s.files[path]? with
  | none => s
  | some ids =>
    { s with files := s.files.erase path, table := ids.foldl (fun t id => t.erase id) s.table }

/-- The session with the definitions as those of the file, scanned at the time `now`. -/
def store (s : Scanner) (path : String) (symbols : List Symbol) (now : Int) : Scanner :=
  { s with
    table := symbols.foldl (fun t d => t.insert d.id d) s.table
    files := s.files.insert path (symbols.map Symbol.id)
    stamps := s.stamps.insert path now }

/-- The definitions of a file, and the session with them in place of the file's former ones. A
file of unknown extension only loses those. -/
def scanFile (s : Scanner) (file : SourceFile) (now : Int) : Scanner × List Symbol :=
  let cleared := s.clearFile file.path
  match cleared.languageFor? file.path with
  | none => (cleared, [])
  | some language =>
    let symbols := (language.definitions file.content file.path).symbols
    (cleared.store file.path symbols now, symbols)

/-- Every definition, by file and place. -/
def allSymbols (s : Scanner) : List Symbol :=
  s.table.values.mergeSort Symbol.upTo

/-- The number of known definitions. -/
def symbolCount (s : Scanner) : Nat :=
  s.table.size

/-- The number of known uses. -/
def usageCount (s : Scanner) : Nat :=
  (s.table.values.flatMap Symbol.usages).length

/-- The number of scanned files. -/
def fileCount (s : Scanner) : Nat :=
  s.files.size

/-- The files of a batch in the order of their paths; of two with one path the later counts. -/
def batchFiles (files : List SourceFile) : List SourceFile :=
  (files.foldl (fun m f => m.insert f.path f) (∅ : Std.TreeMap String SourceFile)).values

/-- A file ready to be searched for uses. -/
structure PreparedFile where
  path : String
  language : Language
  source : SourceText

/-- The files of known extension, ready to be searched. -/
def prepare (s : Scanner) (files : List SourceFile) : List PreparedFile :=
  files.filterMap fun f =>
    (s.languageFor? f.path).map fun language => ⟨f.path, language, language.source f.content⟩

/-- The uses of a definition in the files whose language can refer to it. -/
def usagesOf (s : Scanner) (prepared : List PreparedFile) (symbol : Symbol) : List Usage :=
  match s.languageFor? symbol.filePath with
  | none => []
  | some origin =>
    (prepared.flatMap fun f =>
      if f.language.accepts origin symbol.kind then f.language.usagesIn f.source f.path symbol
      else []).mergeSort Usage.upTo

/-- The session with the uses of every definition found anew in the files. -/
def discoverUsages (s : Scanner) (files : List SourceFile) : Scanner :=
  let prepared := s.prepare files
  { s with table := s.table.map fun _ d => { d with usages := s.usagesOf prepared d } }

/-- What the session holds, as the result of a scan of `count` files that took `elapsed`
milliseconds. -/
def result (s : Scanner) (count elapsed : Nat) : ScanResult where
  symbols := s.allSymbols
  scanTime := elapsed
  filesScanned := count
  symbolsFound := s.symbolCount
  usagesFound := s.usageCount

/-- The session after a batch. -/
def scanBatch (s : Scanner) (files : List SourceFile) (depth : ScanDepth) (now : Int) : Scanner :=
  let batch := batchFiles files
  let scanned := batch.foldl (fun s f => (s.scanFile f now).1) s
  match depth with
  | .deep => scanned.discoverUsages batch
  | .basic => scanned

/-- The session after a batch, and what the batch found. -/
def processBatch (s : Scanner) (files : List SourceFile) (depth : ScanDepth) (now : Int)
    (elapsed : Nat) : Scanner × ScanResult :=
  let after := s.scanBatch files depth now
  (after, after.result (batchFiles files).length elapsed)

/-- The definition with the id. -/
def symbol? (s : Scanner) (id : String) : Option Symbol :=
  s.table[id]?

/-- The definitions listed for a file, as they were read. -/
def listed (s : Scanner) (path : String) : List Symbol :=
  (s.files[path]?.getD []).filterMap fun id => s.table[id]?

/-- The definitions of a file in reading order. -/
def symbolsIn (s : Scanner) (path : String) : List Symbol :=
  (s.listed path).mergeSort fun a b => a.position.upTo b.position

/-- The definitions with the name, by file and place. -/
def symbolsNamed (s : Scanner) (name : String) : List Symbol :=
  (s.table.values.filter (·.name == name)).mergeSort Symbol.upTo

/-- Of two ranges the one that starts later or, from the same start, ends earlier; the second of
equals. -/
def inner (a b : Symbol) : Symbol :=
  if b.range.start.before a.range.start ||
      (a.range.start == b.range.start && a.range.stop.before b.range.stop) then a
  else b

/-- The innermost definition of the file whose range holds the place. -/
def symbolAt? (s : Scanner) (path : String) (place : Position) : Option Symbol :=
  match (s.listed path).filter (·.range.contains place) with
  | [] => none
  | first :: rest => some (rest.foldl inner first)

/-- When the file was last scanned. -/
def lastScanned? (s : Scanner) (path : String) : Option Int :=
  s.stamps[path]?

end Scanner

/-- A file that changed at the time `changed` has to be scanned again: it never was, or it is newer
than its last scan. -/
def isStale (scanned : Option Int) (changed : Int) : Bool :=
  match scanned with
  | none => true
  | some scanned => scanned < changed

/-- Microseconds since the epoch as milliseconds; a time before the epoch counts as the epoch. -/
def toMillis (micros : Int) : Int :=
  if micros < 0 then 0 else micros / 1000

/-- The file has to be scanned again. -/
def Scanner.needsRescan (s : Scanner) (path : String) (changed : Int) : Bool :=
  isStale (s.lastScanned? path) changed

end Concordance
