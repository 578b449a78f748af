import Concordance.Digest
import Concordance.Glob.Basic

/-!
Patterns for file paths: what they match.

A pattern is matched against the bytes of a path from its end to its start. A `Mask` says for each
place of the path, from the first to the one behind the last byte, whether some tokens match all that
follows it; each token takes the mask of the tokens behind it to the mask with itself in front.
-/

namespace Concordance

namespace Glob

/-- The byte of a slash. -/
def slash : UInt8 := 47

/-- For each place of a text, whether what follows it is matched: one more than there are bytes. -/
abbrev Mask := List Bool

/-- What follows the first place is matched. -/
def Mask.here (m : Mask) : Bool :=
  m.headD false

/-- One of the masks holds. -/
def Mask.or (m n : Mask) : Mask :=
  List.zipWith (· || ·) m n

/-- Nothing more is to be matched: only the end of the text will do. -/
def Mask.atEnd : List UInt8 → Mask
  | [] => [true]
  | _ :: bs => false :: atEnd bs

/-- No place will do. -/
def Mask.never : List UInt8 → Mask
  | [] => [false]
  | _ :: bs => false :: never bs

/-- One byte that satisfies `p`, then what `later` says. -/
def oneByte (p : UInt8 → Bool) : List UInt8 → Mask → Mask
  | b :: bs, _ :: later => (p b && Mask.here later) :: oneByte p bs later
  | _, _ => [false]

/-- Any number of bytes that satisfy `p`, then what `later` says. -/
def manyBytes (p : UInt8 → Bool) : List UInt8 → Mask → Mask
  | b :: bs, ok :: later =>
    let more := manyBytes p bs later
    (ok || (p b && more.here)) :: more
  | _, later => later

/-- Anything up to a slash, then what `later` says. -/
def upToSlash : List UInt8 → Mask → Mask
  | b :: bs, _ :: later =>
    let more := upToSlash bs later
    ((b == slash && Mask.here later) || more.here) :: more
  | _, _ => [false]

/-- Any directories, or none, then what `later` says. -/
def directories (text : List UInt8) (later : Mask) : Mask :=
  later.or (upToSlash text later)

/-- Exactly these bytes, then what `later` says. -/
def theseBytes (bytes text : List UInt8) (later : Mask) : Mask :=
  bytes.foldr (fun b later => oneByte (· == b) text later) later

/-- The byte is in one of the ranges. A character of several bytes stands for each of them, and a
range reaches from the last byte of its first character to the first byte of its last one. -/
def inClass (ranges : List (Char × Char)) (b : UInt8) : Bool :=
  ranges.any fun (first, last) =>
    let lower := Digest.utf8 [first]
    let upper := Digest.utf8 [last]
    if first = last then lower.contains b
    else
      lower.dropLast.contains b || upper.tail.contains b ||
        match lower.getLast?, upper.head? with
        | some lo, some hi => lo ≤ b && b ≤ hi
        | _, _ => false

mutual

/-- The token takes no part in a match: a choice without a branch that does. -/
def isVoid : GlobToken → Bool
  | .choice branches => voidBranches branches
  | _ => false

/-- No branch takes part in a match. -/
def voidBranches : List (List GlobToken) → Bool
  | [] => true
  | branch :: rest => voidTokens branch && voidBranches rest

/-- No token takes part in a match. -/
def voidTokens : List GlobToken → Bool
  | [] => true
  | token :: rest => isVoid token && voidTokens rest

end

mutual

/-- The token in front of what `later` says. -/
def inFront (slashesAreLiteral : Bool) (text : List UInt8) (later : Mask) : GlobToken → Mask
  | .literal c => theseBytes (Digest.utf8 [c]) text later
  | .any => oneByte (fun b => !slashesAreLiteral || b != slash) text later
  | .many => manyBytes (fun b => !slashesAreLiteral || b != slash) text later
  | .leadingDirs => directories text later
  | .trailingDirs => oneByte (· == slash) text (manyBytes (fun _ => true) text later)
  | .innerDirs => oneByte (· == slash) text (directories text later)
  | .oneOf negated ranges => oneByte (fun b => inClass ranges b != negated) text later
  | .choice branches =>
    if voidBranches branches then later else oneInFront slashesAreLiteral text later branches

/-- One of the branches that take part in a match in front of what `later` says. -/
def oneInFront (slashesAreLiteral : Bool) (text : List UInt8) (later : Mask) :
    List (List GlobToken) → Mask
  | [] => Mask.never text
  | branch :: rest =>
    let others := oneInFront slashesAreLiteral text later rest
    if voidTokens branch then others
    else (allInFront slashesAreLiteral text later branch).or others

/-- The tokens one after the other in front of what `later` says. -/
def allInFront (slashesAreLiteral : Bool) (text : List UInt8) (later : Mask) :
    List GlobToken → Mask
  | [] => later
  | token :: rest =>
    inFront slashesAreLiteral text (allInFront slashesAreLiteral text later rest) token

end

/-- The pattern is two stars and nothing else. -/
def isEverything : List GlobToken → Bool
  | [.leadingDirs] => true
  | _ => false

/-- The pattern matches the path. -/
def isMatch (g : Glob) (path : List Char) : Bool :=
  let text := Digest.utf8 path
  isEverything g.tokens ||
    (allInFront g.slashesAreLiteral text (Mask.atEnd text) g.tokens).here

end Glob

end Concordance
