import Concordance.Digest
import Concordance.Glob.Match

/-!
The form of a pattern: whether it asks for the name of a file, and how deep it is nested.

A pattern asks for a name when all that it says is a name at the end of a path, or when it ends with
an extension. Two dots at the end of a path are no name.
-/

namespace Concordance

namespace Glob

/-- The token stands for itself. -/
def isLiteral : GlobToken → Bool
  | .literal _ => true
  | _ => false

/-- The token is a slash that stands for itself. -/
def isSlash : GlobToken → Bool
  | .literal c => c == '/'
  | _ => false

/-- The tokens, the last one first, start with an extension: literals without a slash up to a
dot. -/
def startsWithExtension : List GlobToken → Bool
  | .literal c :: rest => c == '.' || (c != '/' && startsWithExtension rest)
  | _ => false

/-- The pattern asks for the name at the end of a path. -/
def asksName (g : Glob) : Bool :=
  match g.tokens with
  | .leadingDirs :: rest =>
    if rest.all isLiteral then !rest.isEmpty && !rest.any isSlash
    else startsWithExtension rest.reverse
  | tokens => !tokens.all isLiteral && startsWithExtension tokens.reverse

/-- The number of bytes that write a character. -/
def byteCount (c : Char) : Nat :=
  (Digest.utf8 [c]).length

/-- The number of bytes and ranges of bytes that make a class. -/
def classSize (ranges : List (Char × Char)) : Nat :=
  (ranges.map fun (first, last) =>
    if first = last then byteCount first else byteCount first + byteCount last - 1).foldl (· + ·) 0

/-- The number of parts in a row that a token is made of. -/
def tokenWidth : GlobToken → Nat
  | .literal c => byteCount c
  | .trailingDirs => 2
  | .choice branches => if voidBranches branches then 0 else 1
  | _ => 1

/-- The number of parts in a row that the tokens are made of. -/
def width (tokens : List GlobToken) : Nat :=
  (tokens.map tokenWidth).foldl (· + ·) 0

mutual

/-- How deep a token is nested: a repetition, a row, a class, a group and its branches lie one level
above what they are made of. -/
def tokenDepth : GlobToken → Nat
  | .literal _ => 0
  | .any => 1
  | .many => 2
  | .leadingDirs => 4
  | .trailingDirs => 1
  | .innerDirs => 4
  | .oneOf _ ranges => if classSize ranges ≤ 1 then 1 else 2
  | .choice branches =>
    if voidBranches branches then 0
    else
      branchesDepth branches +
        (if (branches.filter (!voidTokens ·)).length ≤ 1 then 1 else 2)

/-- The depth of the deepest branch. -/
def branchesDepth : List (List GlobToken) → Nat
  | [] => 0
  | branch :: rest =>
    max (rowDepth branch + (if width branch ≤ 1 then 0 else 1)) (branchesDepth rest)

/-- The depth of the deepest token. -/
def rowDepth : List GlobToken → Nat
  | [] => 0
  | token :: rest => max (tokenDepth token) (rowDepth rest)

end

/-- The greatest depth of a pattern that can be used. -/
def maxDepth : Nat := 250

/-- The pattern is nested deeper than patterns may be. -/
def isTooDeep (g : Glob) : Bool :=
  maxDepth < rowDepth g.tokens + 1

end Glob

end Concordance
