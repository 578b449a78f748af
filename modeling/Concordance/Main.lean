import Concordance.Cli.Run

/-!
The program: it loads the files that a run may look at, runs, prints, and writes what changed.
-/

namespace Concordance.Cli

/-- The location of an absolute path without links. -/
def locationOf (path : String) : Location :=
  (splitSlashes path.toList).filter (!·.isEmpty)

/-- The location that a path has by its text alone, seen from a directory. -/
def textLocation (here : Location) (path : String) : Location :=
  locationOf (normalizePath (joinPath (Location.path here) path))

/-- The node at a path, with all that is below it. Directories that are never scanned stay empty. -/
partial def loadNode (path : String) (name : String) : IO FileNode := do
  let place ← IO.FS.realPath path
  if ← place.isDir then
    if isInternalName name.toList then return .emptyDirectory
    let mut entries : List (List Char × FileNode) := []
    for entry in ← place.readDir do
      let child := entry.path
      let kind := (← child.symlinkMetadata).type
      let node ←
        match kind with
        | .symlink =>
          try
            pure (FileNode.link (← IO.FS.realPath child).toString.toList)
          catch _ => pure (FileNode.link [])
        | _ => loadNode child.toString entry.fileName
      entries := (entry.fileName.toList, node) :: entries
    return .directory entries
  else return .file (← IO.FS.readBinFile place)

/-- The files with the targets of the links below a node, as far as they are not there yet. -/
def loadTargets (fs : FileSystem) (node : FileNode) : IO FileSystem := do
  let mut fs := fs
  for (_, leaf) in node.leaves (fun _ => false) [] do
    if let .link target := leaf then
      let path := String.ofList target
      if !target.isEmpty && !fs.hasNode path then
        let place ← IO.FS.realPath path
        let content ← if ← place.isDir then pure FileNode.emptyDirectory
          else pure (FileNode.file (← IO.FS.readBinFile place))
        fs := { fs with top := fs.top.put (locationOf path) content }
  return fs

/-- The files with all that is below the directory to be scanned. -/
def loadRoot (fs : FileSystem) (root : String) : IO FileSystem := do
  try
    let place := (← IO.FS.realPath root).toString
    let node ← loadNode place ""
    let mut fs := { fs with top := fs.top.put (locationOf place) node }
    fs ← loadTargets fs node
    if !fs.hasNode root then
      fs := { fs with top := fs.top.put (textLocation fs.here root) (.link place.toList) }
    return fs
  catch _ => return fs

/-- The files with the directories above a path, and the path itself, as far as they exist. -/
def loadAbove (fs : FileSystem) (path : String) : IO FileSystem := do
  let mut fs := fs
  let location := textLocation fs.here path
  for count in List.range (location.length + 1) do
    let place := location.take count
    if (fs.top.get? place).isNone then
      try
        let real ← IO.FS.realPath (Location.path place)
        let node := if ← real.isDir then FileNode.emptyDirectory else .file ⟨#[]⟩
        fs := { fs with top := fs.top.put place node }
      catch _ => pure ()
  return fs

/-- The files that a run with the arguments may look at. -/
def loadFiles (arguments : List String) : IO FileSystem := do
  let here := locationOf (← IO.FS.realPath ".").toString
  let fs : FileSystem := ⟨FileNode.emptyDirectory.put here .emptyDirectory, here⟩
  match readArguments arguments with
  | .error _ => return fs
  | .ok (_, flags) =>
    let fs ← loadRoot fs flags.directory
    match flags.output with
    | some path => loadAbove fs path
    | none => return fs

/-- The content of the file at a location. -/
def contentAt? (fs : FileSystem) (place : Location) : Option ByteArray :=
  match fs.top.get? place with
  | some (.file content) => some content
  | _ => none

/-- Writes the files that differ. -/
def storeChanges (before after : FileSystem) : IO Unit := do
  for (place, leaf) in after.top.leaves (fun _ => false) [] do
    if let .file content := leaf then
      if contentAt? before place != some content then
        IO.FS.createDirAll (Location.path place.dropLast)
        IO.FS.writeBinFile (Location.path place) content

end Concordance.Cli

open Concordance in
/-- Runs the program with the arguments behind its name. -/
def main (arguments : List String) : IO UInt32 := do
  let started ← IO.monoMsNow
  let before ← Cli.loadFiles arguments
  let elapsed := (← IO.monoMsNow) - started
  let run := Cli.run { build := "unknown unknown", elapsed := elapsed } before arguments
  Cli.storeChanges before run.files
  IO.eprint (Cli.printed run.errors)
  IO.print (Cli.printed run.output)
  return UInt32.ofNat run.exitCode
