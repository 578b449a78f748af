import Concordance.Diagnostic
import Concordance.FileFilter.Ignore
import Concordance.FileTree.Access
import Concordance.Language

/-!
Which files of a project take part in a scan.

The first of these that holds decides: the path is no file, it is of a kind that is never scanned, an
ignore file names it, its extension is not known, it matches none of the patterns to include, or it
matches one of those to exclude.
-/

namespace Concordance

open Text

/-- Names of directories that are never scanned. -/
def internalDirectories : List String :=
  [".git", ".hg", ".svn", "node_modules", "vendor", "bower_components", "target", ".cache"]

/-- Ends of the names of files that are never scanned. -/
def internalSuffixes : List String :=
  [".min.js", ".min.css", ".bundle.js", ".map"]

/-- The name is that of a directory that is never scanned. -/
def isInternalName (name : List Char) : Bool :=
  internalDirectories.contains (String.ofList name)

/-- The name has the end of a file that is never scanned. -/
def hasInternalSuffix (name : List Char) : Bool :=
  internalSuffixes.any fun s => s.toList.isSuffixOf (asciiLower name)

/-- Which files below a root take part in a scan. -/
structure FileFilter where
  /-- The root, without links if it is there. -/
  root : String
  rules : List IgnoreRule := []
  includes : List Glob := []
  excludes : List Glob := []
  extensions : List String := Language.defaultExtensions.map Prod.fst

namespace FileFilter

/-- The patterns that texts write. -/
def readGlobs : List String → Except Error (List Glob)
  | [] => .ok []
  | pattern :: rest =>
    match Glob.read pattern.toList {} with
    | .error fault => .error (.invalidPattern pattern (fault.describe pattern))
    | .ok glob =>
      match readGlobs rest with
      | .error e => .error e
      | .ok globs => .ok (glob :: globs)

/-- The rules in the file with the name in the root. -/
def rulesIn (fs : FileSystem) (root name : String) : List IgnoreRule :=
  match fs.readBytes (joinPath root name) with
  | .ok content => IgnoreRule.inFile content
  | .error _ => []

/-- A filter for a root, with the patterns to include and to exclude. -/
def make (fs : FileSystem) (root : String) (includes excludes : List String) :
    Except Error FileFilter :=
  let root :=
    match fs.locate root with
    | .ok place => place.path
    | .error _ => root
  match readGlobs includes, readGlobs excludes with
  | .error e, _ => .error e
  | _, .error e => .error e
  | .ok includes, .ok excludes =>
    .ok
      { root := root
        rules := IgnoreRule.usable (rulesIn fs root ".gitignore" ++ rulesIn fs root ".ignore")
        includes := includes
        excludes := excludes }

/-- The filter with the extensions in place of its own. -/
def withExtensions (f : FileFilter) (extensions : List String) : FileFilter :=
  { f with extensions := extensions.map normalizeExtension }

/-- A piece between slashes that leads nowhere. -/
def isVoidPiece (piece : List Char) : Bool :=
  piece.isEmpty || piece == ['.']

/-- The pieces without the first `count` that lead somewhere. -/
def dropPieces : Nat → List (List Char) → List (List Char)
  | _, [] => []
  | 0, pieces => pieces.dropWhile isVoidPiece
  | count + 1, piece :: rest =>
    if isVoidPiece piece then dropPieces (count + 1) rest else dropPieces count rest

/-- The pieces without those at the end that lead nowhere. -/
def trimPieces (pieces : List (List Char)) : List (List Char) :=
  (pieces.reverse.dropWhile isVoidPiece).reverse

/-- The pieces of a path between slashes, seen from the root if it lies below it. -/
def piecesBelow (f : FileFilter) (path : String) : List (List Char) :=
  let root := Path.ofString f.root
  let pieces := splitSlashes path.toList
  match root.below? (Path.ofString path) with
  | some _ => trimPieces (dropPieces root.parts.length pieces)
  | none => trimPieces (pieces.dropWhile isVoidPiece)

/-- The directories above the last piece, the longest first. -/
def piecesAbove (pieces : List (List Char)) : List (List (List Char)) :=
  ((List.range pieces.length).reverse.map fun n => trimPieces (pieces.take n)).filter
    (!·.isEmpty)

/-- The rules of ignore files name the path or a directory above it. -/
def isIgnoredByRules (f : FileFilter) (path : String) : Bool :=
  let pieces := f.piecesBelow path
  isIgnored f.rules (List.intercalate ['/'] pieces) false ||
    (piecesAbove pieces).any fun dir => isIgnored f.rules (List.intercalate ['/'] dir) true

/-- The path is of a kind that is never scanned. -/
def isInternal (f : FileFilter) (path : String) : Bool :=
  let p := Path.ofString path
  p.fileName?.any hasInternalSuffix ||
    (((Path.ofString f.root).below? p).getD p).parts.any fun part =>
      match part with
      | .name name => isInternalName name
      | _ => false

/-- The extension of the path is known. -/
def hasExtension (f : FileFilter) (path : String) : Bool :=
  (extensionOf? path).any f.extensions.contains

/-- The patterns let the path, seen from the root, take part. -/
def isSelected (f : FileFilter) (path : String) : Bool :=
  let relative := (relativePath f.root path).toList
  (f.includes.isEmpty || f.includes.any (·.isMatch relative)) &&
    !f.excludes.any (·.isMatch relative)

/-- Why the path takes no part in a scan, if it does not. -/
def skipReason? (f : FileFilter) (fs : FileSystem) (path : String) : Option SkipReason :=
  if !fs.isFile path then some .notAFile
  else if f.isInternal path then some .ignoredInternal
  else if f.isIgnoredByRules path then some .ignoredByGitignore
  else if !f.hasExtension path then some .unsupportedLanguage
  else if !f.isSelected path then some .excludedByGlob
  else none

end FileFilter

end Concordance
