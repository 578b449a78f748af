import Concordance.FileTree.Basic

/-!
Where a path leads in a tree of files.

A path is walked name by name. A symbolic link is replaced by its target, at most forty times; two
dots lead to the directory above the one that was reached. What is found is a location without any
link in it.
-/

namespace Concordance

open Text

/-- Why the system refused to do something with a file. -/
inductive SystemError where
  | notFound
  | accessDenied
  | fileExists
  | notADirectory
  | isADirectory
  | nameTooLong
  | tooManyLinks
  /-- A file that should be text holds something else. -/
  | notText
deriving Repr, DecidableEq, Inhabited

/-- A refusal of the system in words. -/
def SystemError.message : SystemError → String
  | .notFound => "No such file or directory (os error 2)"
  | .accessDenied => "Permission denied (os error 13)"
  | .fileExists => "File exists (os error 17)"
  | .notADirectory => "Not a directory (os error 20)"
  | .isADirectory => "Is a directory (os error 21)"
  | .nameTooLong => "File name too long (os error 36)"
  | .tooManyLinks => "Too many levels of symbolic links (os error 40)"
  | .notText => "stream did not contain valid UTF-8"

/-- A tree of files and the directory that relative paths start from. -/
structure FileSystem where
  top : FileNode
  here : Location

/-- Where a path leads. -/
inductive Resolved where
  /-- To a node that is there. -/
  | found (place : Location)
  /-- To a name in a directory that has no such entry. -/
  | missing (directory : Location) (name : List Char)
deriving Repr, DecidableEq

/-- The location of the node that is there. -/
def Resolved.place : Resolved → Except SystemError Location
  | .found place => .ok place
  | .missing .. => .error .notFound

namespace FileSystem

/-- The names in a path. A slash at its end is an empty name, which stays in a directory as a dot
does. -/
def steps (path : List Char) : List (List Char) :=
  (splitSlashes path).filter (!·.isEmpty) ++ (if path.getLast? == some '/' then [[]] else [])

/-- The location that a path starts from, seen from a directory. -/
def start (directory : Location) (path : List Char) : Location :=
  if path.head? == some '/' then [] else directory

/-- The longest name, in bytes. -/
def maxName : Nat := 255

/-- The longest path, in bytes, that the system looks up. -/
def maxPath : Nat := 4095

/-- The number of links that are followed in one path. -/
def maxLinks : Nat := 40

/-- What the system looks a path up for. -/
inductive Purpose where
  /-- A node that should be there. -/
  | find
  /-- A file that is made if it is not there, so that no slash may follow the last name. -/
  | make
deriving Repr, DecidableEq

/-- Where the names lead from a directory, with at most `links` links followed. -/
def walk (purpose : Purpose) (top : FileNode) (links : Nat) (directory : Location)
    (names : List (List Char)) : Except SystemError Resolved :=
  match names with
  | [] => .ok (.found directory)
  | name :: rest =>
    match top.get? directory with
    | some (.directory entries) =>
      if name = [] ∨ name = ['.'] then walk purpose top links directory rest
      else if name = ['.', '.'] then walk purpose top links directory.dropLast rest
      else if purpose = .make ∧ rest = [[]] then .error .isADirectory
      else if maxName < byteLength name then .error .nameTooLong
      else
        match entries.lookup name with
        | none => if rest.isEmpty then .ok (.missing directory name) else .error .notFound
        | some (.link target) =>
          match links with
          | 0 => .error .tooManyLinks
          | links + 1 =>
            if target.isEmpty then .error .notFound
            else walk purpose top links (start directory target) (steps target ++ rest)
        | some _ => walk purpose top links (directory ++ [name]) rest
    | _ => .error .notADirectory
termination_by (links, names.length)

/-- Where a path of any length leads. -/
def follow (fs : FileSystem) (purpose : Purpose) (path : List Char) : Except SystemError Resolved :=
  if path.isEmpty then .error .notFound
  else walk purpose fs.top maxLinks (start fs.here path) (steps path)

/-- Where a path leads that is given to the system as a whole. -/
def resolve (fs : FileSystem) (purpose : Purpose) (path : String) : Except SystemError Resolved :=
  let text := path.toList
  if maxPath < byteLength text then .error .nameTooLong else fs.follow purpose text

/-- The location of the node that a path leads to, without links and dots. The path is looked up
name by name, so it may be of any length. -/
def locate (fs : FileSystem) (path : String) : Except SystemError Location :=
  (fs.follow .find path.toList).bind Resolved.place

/-- The location of the node that the system finds under a path. -/
def find (fs : FileSystem) (path : String) : Except SystemError Location :=
  (fs.resolve .find path).bind Resolved.place

/-- The node that a path leads to. -/
def node? (fs : FileSystem) (path : String) : Option FileNode :=
  match fs.find path with
  | .error _ => none
  | .ok place => fs.top.get? place

/-- The path leads to a node. -/
def hasNode (fs : FileSystem) (path : String) : Bool :=
  (fs.node? path).isSome

/-- The path leads to a directory. -/
def isDirectory (fs : FileSystem) (path : String) : Bool :=
  (fs.node? path).any FileNode.isDirectory

/-- The path leads to a regular file. -/
def isFile (fs : FileSystem) (path : String) : Bool :=
  (fs.node? path).any FileNode.isFile

end FileSystem

end Concordance
