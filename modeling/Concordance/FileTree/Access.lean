import Concordance.FileTree.Resolve

/-!
Reading and writing files, and making directories.
-/

namespace Concordance

open Text

namespace FileSystem

/-- The bytes of the file at a location. -/
def bytesAt (fs : FileSystem) (place : Location) : Except SystemError ByteArray :=
  match fs.top.get? place with
  | some (.file content) => .ok content
  | some (.directory _) => .error .isADirectory
  | _ => .error .notFound

/-- The text that bytes encode. -/
def decode (bytes : ByteArray) : Except SystemError String :=
  match String.fromUTF8? bytes with
  | some text => .ok text
  | none => .error .notText

/-- The text of the file at a location. -/
def textAt (fs : FileSystem) (place : Location) : Except SystemError String :=
  (fs.bytesAt place).bind decode

/-- The bytes of a file. -/
def readBytes (fs : FileSystem) (path : String) : Except SystemError ByteArray :=
  (fs.find path).bind fs.bytesAt

/-- The text of a file. -/
def readText (fs : FileSystem) (path : String) : Except SystemError String :=
  (fs.readBytes path).bind decode

/-- The files with a text at a location. -/
def putText (fs : FileSystem) (place : Location) (text : String) : FileSystem :=
  { fs with top := fs.top.put place (.file text.toUTF8) }

/-- The files with a text written at a location, unless there is a directory or the system refuses:
`refusals` says what it has against writing at a location, if anything. -/
def writeAt (fs : FileSystem) (refusals : Location → Option SystemError) (place : Location)
    (text : String) : Except SystemError FileSystem :=
  match fs.top.get? place with
  | some (.directory _) => .error .isADirectory
  | _ =>
    match refusals place with
    | some e => .error e
    | none => .ok (fs.putText place text)

/-- The files with a text written to a path. A link is followed, and a file that is not there is
made. -/
def writeText (fs : FileSystem) (path text : String) : Except SystemError FileSystem :=
  match fs.resolve .make path with
  | .error e => .error e
  | .ok (.missing directory name) => .ok (fs.putText (directory ++ [name]) text)
  | .ok (.found place) =>
    match fs.top.get? place with
    | some (.directory _) => .error .isADirectory
    | _ => .ok (fs.putText place text)

/-- The files with one directory made. -/
def makeDirectory (fs : FileSystem) (path : Path) : Except SystemError FileSystem :=
  match path.parts.getLast? with
  | none => .error .fileExists
  | some last =>
    let above : Path := ⟨path.absolute, path.parts.dropLast⟩
    if maxPath < byteLength path.chars then .error .nameTooLong
    else
      match walk .find fs.top maxLinks (start fs.here path.chars) (steps above.chars ++ [[]]) with
      | .error e => .error e
      | .ok (.missing ..) => .error .notFound
      | .ok (.found place) =>
        match last with
        | .name name =>
          if maxName < byteLength name then .error .nameTooLong
          else if ((fs.top.get? place).bind (FileNode.entry? name)).isSome then .error .fileExists
          else .ok { fs with top := fs.top.put (place ++ [name]) .emptyDirectory }
        | _ => .error .fileExists

/-- The files with a directory made, unless it is there. -/
def ensureDirectory (fs : FileSystem) (path : Path) : Except SystemError FileSystem :=
  match fs.makeDirectory path with
  | .ok fs => .ok fs
  | .error e => if fs.isDirectory path.toString then .ok fs else .error e

/-- The files with the directory of the first `count` parts of the path made, and those above it. -/
def makeFirst (fs : FileSystem) (path : Path) : Nat → Except SystemError FileSystem
  | 0 =>
    if path.absolute then fs.ensureDirectory ⟨true, []⟩ else .ok fs
  | count + 1 =>
    let directory : Path := ⟨path.absolute, path.parts.take (count + 1)⟩
    match fs.ensureDirectory directory with
    | .ok fs => .ok fs
    | .error .notFound =>
      match fs.makeFirst path count with
      | .ok fs => fs.ensureDirectory directory
      | .error e => .error e
    | .error e => .error e

/-- The files with a directory made, and those above it. -/
def makeDirectories (fs : FileSystem) (path : Path) : Except SystemError FileSystem :=
  fs.makeFirst path path.parts.length

end FileSystem

end Concordance
