import Concordance.FileTree.Access
import Concordance.Scanner

/-!
Reading the files of a project and scanning them as one batch.
-/

namespace Concordance

/-- The content of a file, with its path seen from the root, or what went wrong. -/
def readSource (fs : FileSystem) (root path : String) : Except Diagnostic SourceFile :=
  let relative := relativePath root path
  let failed (message : String) : Except Diagnostic SourceFile :=
    .error (.ofError relative .read (.fileRead relative message))
  match fs.readBytes path with
  | .error e => failed e.message
  | .ok bytes =>
    match String.fromUTF8? bytes with
    | some content => .ok ⟨relative, content⟩
    | none => failed "not valid UTF-8"

/-- The file that was read, if it was. -/
def readFile? : Except Diagnostic SourceFile → Option SourceFile
  | .ok file => some file
  | .error _ => none

/-- What went wrong, if anything did. -/
def readFault? : Except Diagnostic SourceFile → Option Diagnostic
  | .ok _ => none
  | .error d => some d

/-- The files that can be read, by path, and what went wrong with the others. -/
def readSources (fs : FileSystem) (root : String) (paths : List String) :
    List SourceFile × List Diagnostic :=
  let results := paths.map (readSource fs root)
  ((results.filterMap readFile?).mergeSort fun a b => decide (a.path ≤ b.path),
    Diagnostic.sorted (results.filterMap readFault?))

/-- The session after the files are read and scanned as one batch, and what the batch found. -/
def Scanner.scanPaths (s : Scanner) (fs : FileSystem) (root : String) (paths : List String)
    (depth : ScanDepth) (now : Int) (elapsed : Nat) : Scanner × ScanResult :=
  let (files, diagnostics) := readSources fs root paths
  let (s, result) := s.processBatch files depth now elapsed
  (s, { result with diagnostics := diagnostics })

end Concordance
