import Concordance.FileFilter.Basic

/-!
The files below a root that take part in a scan, and why others do not.
-/

namespace Concordance

namespace FileFilter

/-- A directory below the root that is never scanned; the root itself always is. -/
def isPruned (root place : Location) : Bool :=
  place != root && place.getLast?.any isInternalName

/-- The paths of everything below the root that is no directory, without the directories that are
never scanned. -/
def walk (fs : FileSystem) (root : Location) : List String :=
  match fs.top.get? root with
  | none => []
  | some node => (node.leaves (isPruned root) root).map fun leaf => leaf.1.path

/-- The diagnostic of a path that takes no part, if there is one: nothing is said about unknown
extensions. -/
def skipDiagnostic? (f : FileFilter) (fs : FileSystem) (path : String) : Option Diagnostic :=
  match f.skipReason? fs path with
  | none => none
  | some .unsupportedLanguage => none
  | some reason => some (.skipped (relativePath f.root path) reason)

/-- The order of paths, part by part. -/
def pathUpTo (a b : String) : Bool :=
  (Path.ofString a).le (Path.ofString b)

/-- The paths below the root that take part in a scan, in order, and what is to be said about the
others. -/
def collect (f : FileFilter) (fs : FileSystem) : List String × List Diagnostic :=
  match fs.locate f.root with
  | .error e =>
    let message := "IO error for operation on " ++ f.root ++ ": " ++ e.message
    ([], [.error (relativePath f.root f.root) .read message])
  | .ok root =>
    let paths := walk fs root
    ((paths.filter fun p => (f.skipReason? fs p).isNone).mergeSort pathUpTo,
      Diagnostic.sorted (paths.filterMap (f.skipDiagnostic? fs)))

end FileFilter

end Concordance
