import Concordance.Text.Lowercase

/-!
File paths with `/` between their parts.

A path is absolute or not, and a list of parts. Empty parts and single dots count for nothing,
except a dot at the start of a relative path. Nothing here looks at a file system: `normalize`
resolves dots by the text alone.
-/

namespace Concordance

open Text

/-- One part of a path. -/
inductive PathPart where
  /-- A dot at the start of a relative path. -/
  | current
  /-- Two dots. -/
  | parent
  /-- A name. -/
  | name (text : List Char)
deriving Repr, DecidableEq

/-- A path: its parts, counted from the root of the file system if it is absolute. -/
structure Path where
  absolute : Bool
  parts : List PathPart
deriving Repr, DecidableEq

/-- The pieces of a text between slashes; always at least one. -/
def splitSlashes (text : List Char) : List (List Char) :=
  text.splitOn '/'

namespace PathPart

/-- The part that a piece between slashes stands for. -/
def ofPiece? (piece : List Char) : Option PathPart :=
  if piece = [] ∨ piece = ['.'] then none
  else if piece = ['.', '.'] then some .parent
  else some (.name piece)

/-- The part as it is written. -/
def text : PathPart → List Char
  | .current => ['.']
  | .parent => ['.', '.']
  | .name text => text

/-- The order of parts: a dot, two dots, then names by code point. -/
def le : PathPart → PathPart → Bool
  | .current, _ => true
  | .parent, .current => false
  | .parent, _ => true
  | .name _, .current => false
  | .name _, .parent => false
  | .name a, .name b => Text.upTo a b

end PathPart

namespace Path

/-- The path that a text writes. -/
def ofChars (text : List Char) : Path :=
  let pieces := splitSlashes text
  let absolute := text.head? == some '/'
  let parts := pieces.filterMap PathPart.ofPiece?
  if !absolute && pieces.head? == some ['.'] then ⟨false, .current :: parts⟩ else ⟨absolute, parts⟩

/-- The path that a text writes. -/
def ofString (text : String) : Path :=
  ofChars text.toList

/-- The path with one slash between parts. -/
def chars (p : Path) : List Char :=
  (if p.absolute then ['/'] else []) ++ List.intercalate ['/'] (p.parts.map PathPart.text)

/-- The path with one slash between parts. -/
def toString (p : Path) : String :=
  String.ofList p.chars

/-- The last part, when it is a name. -/
def fileName? (p : Path) : Option (List Char) :=
  match p.parts.getLast? with
  | some (.name text) => some text
  | _ => none

/-- The path without its last part; the root and the empty path have none. -/
def parent? (p : Path) : Option Path :=
  if p.parts.isEmpty then none else some ⟨p.absolute, p.parts.dropLast⟩

/-- The paths that remain when the last parts are dropped one by one, the longest first. -/
def properAncestors (p : Path) : List Path :=
  (List.range p.parts.length).reverse.map fun n => ⟨p.absolute, p.parts.take n⟩

/-- A file name before its last dot and after it. A dot at the start divides nothing. -/
def splitName (name : List Char) : List Char × Option (List Char) :=
  let after := (name.reverse.takeWhile (· ≠ '.')).reverse
  let before := name.take (name.length - after.length - 1)
  if before.isEmpty || after.length == name.length then (name, none) else (before, some after)

/-- The file name before its last dot. -/
def stem? (p : Path) : Option (List Char) :=
  p.fileName?.map fun name => (splitName name).1

/-- The file name after its last dot. -/
def extension? (p : Path) : Option (List Char) :=
  p.fileName?.bind fun name => (splitName name).2

/-- The parts of `p` below `base`, when `p` lies under it. -/
def below? (base p : Path) : Option Path :=
  if !base.absolute && base.parts.isEmpty then some p
  else if base.absolute == p.absolute && base.parts.isPrefixOf p.parts then
    some ⟨false, p.parts.drop base.parts.length⟩
  else none

/-- One part added to parts that are kept with the last first: two dots take back the part before
them, whatever it is, and stand only where there is none. -/
def resolvePart (resolved : List PathPart) : PathPart → List PathPart
  | .current => resolved
  | .parent =>
    match resolved with
    | [] => [.parent]
    | _ :: rest => rest
  | .name text => .name text :: resolved

/-- The path with dots resolved by the text alone. -/
def normalize (p : Path) : Path :=
  ⟨p.absolute, (p.parts.foldl resolvePart []).reverse⟩

/-- The order of paths: part by part, the root before any part. -/
def le (p q : Path) : Bool :=
  if p.absolute == q.absolute then go p.parts q.parts
  else if p.absolute then !q.parts.isEmpty
  else p.parts.isEmpty
where
  /-- Part by part, a shorter list first. -/
  go : List PathPart → List PathPart → Bool
    | [], _ => true
    | _ :: _, [] => false
    | a :: as, b :: bs => if a = b then go as bs else a.le b

end Path

/-- The text with every backslash made a slash, and without a leading `./`. -/
def normalizeSeparators (path : String) : String :=
  let text := replaceChar '\\' ['/'] path.toList
  String.ofList ((stripFront? ['.', '/'] text).getD text)

/-- The path with dots resolved by the text alone. -/
def normalizePath (path : String) : String :=
  (Path.ofString path).normalize.toString

/-- The text of `path` written after `base`, unless it is absolute. -/
def joinPath (base path : String) : String :=
  if path.toList.head? == some '/' || base.isEmpty then path
  else if base.toList.getLast? == some '/' then base ++ path
  else base ++ "/" ++ path

/-- `path` as seen from `root`, or normalized when it lies elsewhere. -/
def relativePath (root path : String) : String :=
  let path := (Path.ofString path).normalize
  normalizeSeparators (((Path.ofString root).normalize.below? path).getD path).toString

/-- A file key as shown: an absolute one is seen from `root` when that is given. -/
def displayPath (file : String) (root : Option String) : String :=
  match root with
  | some root => if (Path.ofString file).absolute then relativePath root file
      else normalizeSeparators file
  | none => normalizeSeparators file

/-- The last piece of a path, whichever slash divides it. -/
def baseName (path : List Char) : List Char :=
  (path.reverse.takeWhile fun c => c ≠ '/' && c ≠ '\\').reverse

/-- The name in small letters without hyphens and underscores. -/
def looseName (name : List Char) : List Char :=
  lower (name.filter fun c => c ≠ '-' && c ≠ '_')

/-- The file is the main file of a module: its stem is the name of its directory or of the one
above, whatever the case, hyphens and underscores. -/
def isEntryPoint (path : String) : Bool :=
  let p := Path.ofString path
  match p.stem? with
  | none => false
  | some stem =>
    let stem := looseName stem
    !stem.isEmpty &&
      (p.properAncestors.take 2).any fun dir =>
        match dir.fileName? with
        | some name => looseName name == stem
        | none => false

end Concordance
