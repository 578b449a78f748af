import Concordance.Config
import Concordance.FileTree.Access

/-!
The settings of a project and the results of scans, as files.
-/

namespace Concordance

/-- The path without its last part, unless nothing is left of it. -/
def parentPath? (path : String) : Option Path :=
  (Path.ofString path).parent?.filter fun p => p.absolute || !p.parts.isEmpty

/-- The settings in the root of a project; without a file of settings, the usual ones. -/
def Config.load (fs : FileSystem) (root : String) : Except Error Config :=
  let path := joinPath root Config.fileName
  if !fs.hasNode path then .ok {}
  else
    match fs.readText path with
    | .error e => .error (.fileRead path e.message)
    | .ok text =>
      match Config.ofText text.toList with
      | .error message => .error (.invalidJson message)
      | .ok config => .ok config

/-- The files with the directories above a path made, if they could be. -/
def FileSystem.ensureParent (fs : FileSystem) (path : String) : Except SystemError FileSystem :=
  match parentPath? path with
  | some directory => fs.makeDirectories directory
  | none => .ok fs

/-- The files with the result of a scan stored at a path, and whether that went well. The
directories above the path are made first. -/
def ScanResult.save (r : ScanResult) (fs : FileSystem) (path : String) :
    FileSystem × Except Error Unit :=
  match fs.ensureParent path with
  | .error e => (fs, .error (.fileWrite path e.message))
  | .ok fs =>
    match fs.writeText path (String.ofList r.stored) with
    | .error e => (fs, .error (.fileWrite path e.message))
    | .ok fs => (fs, .ok ())

/-- The result of a scan that is stored at a path. -/
def ScanResult.load (fs : FileSystem) (path : String) : Except Error ScanResult :=
  if !fs.hasNode path then .error (.inputNotFound path)
  else
    match fs.readText path with
    | .error e => .error (.fileRead path e.message)
    | .ok text =>
      match ScanResult.ofStored text.toList with
      | .error message => .error (.invalidJson message)
      | .ok result => .ok result

end Concordance
