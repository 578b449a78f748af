/-!
What can go wrong, as causes. Each cause has a code that stays the same, a wording, and tells
whether it ends the whole run.
-/

namespace Concordance

/-- What went wrong. -/
inductive Error where
  /-- A file or directory that was asked for does not exist. -/
  | inputNotFound (path : String)
  | fileRead (path message : String)
  | fileWrite (path message : String)
  /-- A comment above a definition lacks its start or its end. -/
  | malformedDocBlock (path symbol : String) (line : Nat)
  /-- Braces do not match. -/
  | unmatchedNesting (path : String) (line : Nat)
  | invalidPattern (pattern message : String)
  | cannotResolve (path : String)
  | outsideRoot (path root : String)
  | system (message : String)
  | invalidJson (message : String)
deriving Repr, DecidableEq, Inhabited

namespace Error

/-- The code of a cause. -/
def code : Error → String
  | .inputNotFound _ => "UB-IO-001"
  | .fileRead .. => "UB-IO-002"
  | .fileWrite .. => "UB-IO-003"
  | .cannotResolve _ => "UB-IO-004"
  | .outsideRoot .. => "UB-IO-004"
  | .system _ => "UB-IO-004"
  | .malformedDocBlock .. => "UB-DOC-001"
  | .unmatchedNesting .. => "UB-PRS-001"
  | .invalidPattern .. => "UB-CFG-001"
  | .invalidJson _ => "UB-CFG-002"

/-- The cause ends the whole run, not only the work on one file. -/
def isFatal : Error → Bool
  | .inputNotFound _ => true
  | .invalidPattern .. => true
  | .invalidJson _ => true
  | _ => false

/-- The wording of a cause. -/
def message : Error → String
  | .inputNotFound path => "input not found: " ++ path
  | .fileRead path message => "cannot read " ++ path ++ ": " ++ message
  | .fileWrite path message => "cannot write " ++ path ++ ": " ++ message
  | .malformedDocBlock path symbol line =>
    "malformed doc block above " ++ symbol ++ " at " ++ path ++ ":" ++ toString line
  | .unmatchedNesting path line => "unmatched nesting in " ++ path ++ " at line " ++ toString line
  | .invalidPattern pattern message => "invalid pattern " ++ pattern ++ ": " ++ message
  | .cannotResolve path => "cannot canonicalize path: " ++ path
  | .outsideRoot path root => "path escapes scan root: " ++ path ++ " (root: " ++ root ++ ")"
  | .system message => message
  | .invalidJson message => message

/-- The wording with the code in front. -/
def tagged (e : Error) : String :=
  "[" ++ e.code ++ "] " ++ e.message

end Error

end Concordance
