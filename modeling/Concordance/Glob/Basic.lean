import Concordance.Text.Basic

/-!
Patterns for file paths: how they are written.

`*` and `?` stand for any characters, `**` between slashes for any number of directories, brackets
for one of a class of characters, and braces for one of several patterns. A backslash takes the
meaning from the character behind it.
-/

namespace Concordance

/-- A part of a pattern. -/
inductive GlobToken where
  | literal (c : Char)
  /-- Any one byte. -/
  | any
  /-- Any number of bytes. -/
  | many
  /-- Any directories at the start. -/
  | leadingDirs
  /-- Anything below a directory, at the end. -/
  | trailingDirs
  /-- A slash, or any directories between two slashes. -/
  | innerDirs
  /-- One byte that is, or is not, in one of the ranges. -/
  | oneOf (negated : Bool) (ranges : List (Char × Char))
  /-- One of several patterns. -/
  | choice (branches : List (List GlobToken))
deriving Repr, Inhabited

/-- What is wrong with a pattern. -/
inductive GlobFault where
  | classNotClosed
  | badRange (first last : Char)
  | groupNotOpened
  | groupNotClosed
  | danglingEscape
deriving Repr, DecidableEq

/-- What is wrong with a pattern, in words. -/
def GlobFault.message : GlobFault → String
  | .classNotClosed => "unclosed character class; missing ']'"
  | .badRange first last =>
    "invalid range; '" ++ first.toString ++ "' > '" ++ last.toString ++ "'"
  | .groupNotOpened =>
    "unopened alternate group; missing '\x7b' (maybe escape '\x7d' with '[\x7d]'?)"
  | .groupNotClosed =>
    "unclosed alternate group; missing '\x7d' (maybe escape '\x7b' with '[\x7b]'?)"
  | .danglingEscape => "dangling '\\'"

namespace Glob

/-- The characters of a class as they are read. -/
structure ClassState where
  /-- The ranges so far, the last one first. -/
  ranges : List (Char × Char) := []
  /-- A dash behind a character may start a range. -/
  inRange : Bool := false
  /-- Nothing was read yet. -/
  first : Bool := true
deriving Repr, DecidableEq

/-- The range that ends with the character in place of the last one. -/
def ClassState.close (s : ClassState) (c : Char) : Except GlobFault ClassState :=
  match s.ranges with
  | [] => .ok { s with ranges := [(c, c)], inRange := false, first := false }
  | (first, _) :: rest =>
    if c < first then .error (.badRange first c)
    else .ok ⟨(first, c) :: rest, false, false⟩

/-- The class with one more character. -/
def ClassState.add (s : ClassState) (c : Char) : Except GlobFault ClassState :=
  if s.inRange then s.close c
  else if c = '-' ∧ ¬ s.first then .ok { s with inRange := true, first := false }
  else .ok ⟨(c, c) :: s.ranges, false, false⟩

/-- A class as a token; a dash at its end stands for itself. -/
def ClassState.token (s : ClassState) (negated : Bool) : GlobToken :=
  .oneOf negated (if s.inRange then (('-', '-') :: s.ranges).reverse else s.ranges.reverse)

/-- The characters of a class up to its closing bracket: `none` if there is none. -/
def classBody : ClassState → List Char → Except GlobFault (Option (ClassState × List Char))
  | _, [] => .ok none
  | s, c :: cs =>
    if c = ']' ∧ ¬ s.first then .ok (some (s, cs))
    else
      match s.add c with
      | .error e => .error e
      | .ok s => classBody s cs

/-- A class behind its opening bracket: `none` if it is not closed. -/
def readClass (cs : List Char) : Except GlobFault (Option (GlobToken × List Char)) :=
  let (negated, body) :=
    match cs with
    | '!' :: cs => (true, cs)
    | '^' :: cs => (true, cs)
    | cs => (false, cs)
  match classBody {} body with
  | .error e => .error e
  | .ok none => .ok none
  | .ok (some (s, rest)) => .ok (some (s.token negated, rest))

/-- A group whose closing brace is still to come. -/
structure OpenGroup where
  /-- What stands before the group, the last token first. -/
  before : List GlobToken
  /-- The branches that are complete, the last one first. -/
  branches : List (List GlobToken)

/-- A pattern as it is read. -/
structure State where
  /-- The tokens of the current branch, the last one first. -/
  tokens : List GlobToken := []
  /-- The open groups, the innermost first. -/
  groups : List OpenGroup := []
  /-- The character before the next one. -/
  previous : Option Char := none
  /-- A bracket that is not closed was met; from there on brackets stand for themselves. -/
  openBracket : Bool := false

/-- The pattern with one more token, behind the character `last`. -/
def State.push (s : State) (token : GlobToken) (last : Char) : State :=
  { s with tokens := token :: s.tokens, previous := some last }

/-- A new group. -/
def State.openGroup (s : State) : State :=
  { s with tokens := [], groups := ⟨s.tokens, []⟩ :: s.groups, previous := some '{' }

/-- The innermost group made a token. -/
def State.closeGroup (s : State) : Except GlobFault State :=
  match s.groups with
  | [] => .error .groupNotOpened
  | group :: groups =>
    let branches := (s.tokens.reverse :: group.branches).reverse
    .ok { s with tokens := .choice branches :: group.before, groups := groups, previous := some '}' }

/-- A comma: a new branch inside a group, else itself. -/
def State.comma (s : State) : State :=
  match s.groups with
  | [] => s.push (.literal ',') ','
  | group :: groups =>
    { s with
      tokens := []
      groups := ⟨group.before, s.tokens.reverse :: group.branches⟩ :: groups
      previous := some ',' }

/-- The pattern with two stars that stand for any number of bytes. -/
def State.twoStars (s : State) : State :=
  (s.push .many '*').push .many '*'

/-- The last token made one that stands for directories; directories at the start or the end stay
what they are. -/
def State.directories (s : State) (token : GlobToken) (last : Char) : State :=
  let token :=
    match s.tokens.head? with
    | some .leadingDirs => .leadingDirs
    | some .trailingDirs => .trailingDirs
    | _ => token
  { s with tokens := token :: s.tokens.drop 1, previous := some last }

/-- Two stars in front of `rest`: directories if they fill the space between slashes, else any
number of bytes. -/
def State.doubleStar (s : State) (rest : List Char) : State × List Char :=
  let inGroup := !s.groups.isEmpty
  if s.tokens.isEmpty then
    match rest with
    | [] => (s.push .leadingDirs '*', [])
    | '/' :: rest => (s.push .leadingDirs '/', rest)
    | rest => (s.twoStars, rest)
  else if s.previous != some '/' &&
      !(inGroup && (s.previous == some ',' || s.previous == some '{')) then
    (s.twoStars, rest)
  else
    match rest with
    | [] => (s.directories .trailingDirs '*', [])
    | c :: cs =>
      if c = '/' then (s.directories .innerDirs '/', cs)
      else if inGroup && (c == ',' || c == '}') then (s.directories .trailingDirs '*', rest)
      else (s.twoStars, rest)

/-- The pattern read to its end. The count is an upper bound on the steps. -/
def readTokens (keepOpenBracket : Bool) : Nat → State → List Char → Except GlobFault State
  | _, s, [] => .ok s
  | 0, s, _ => .ok s
  | fuel + 1, s, c :: cs =>
    match c with
    | '?' => readTokens keepOpenBracket fuel (s.push .any '?') cs
    | '*' =>
      match cs with
      | '*' :: cs =>
        let (s, rest) := s.doubleStar cs
        readTokens keepOpenBracket fuel s rest
      | cs => readTokens keepOpenBracket fuel (s.push .many '*') cs
    | '{' => readTokens keepOpenBracket fuel s.openGroup cs
    | '}' =>
      match s.closeGroup with
      | .error e => .error e
      | .ok s => readTokens keepOpenBracket fuel s cs
    | ',' => readTokens keepOpenBracket fuel s.comma cs
    | '\\' =>
      match cs with
      | [] => .error .danglingEscape
      | d :: ds => readTokens keepOpenBracket fuel (s.push (.literal d) d) ds
    | '[' =>
      if s.openBracket then readTokens keepOpenBracket fuel (s.push (.literal '[') '[') cs
      else
        match readClass cs with
        | .error e => .error e
        | .ok (some (token, rest)) => readTokens keepOpenBracket fuel (s.push token ']') rest
        | .ok none =>
          if keepOpenBracket then
            readTokens keepOpenBracket fuel
              { s.push (.literal '[') '[' with openBracket := true } cs
          else .error .classNotClosed
    | c => readTokens keepOpenBracket fuel (s.push (.literal c) c) cs

end Glob

/-- A pattern for paths. -/
structure Glob where
  tokens : List GlobToken
  /-- `*` and `?` stop at slashes. -/
  slashesAreLiteral : Bool

/-- How a pattern is read. -/
structure GlobOptions where
  /-- `*` and `?` stop at slashes. -/
  slashesAreLiteral : Bool := false
  /-- A bracket that is not closed stands for itself. -/
  keepOpenBracket : Bool := false
deriving Repr, DecidableEq

/-- The pattern that a text writes. -/
def Glob.read (text : List Char) (options : GlobOptions) : Except GlobFault Glob :=
  match Glob.readTokens options.keepOpenBracket text.length {} text with
  | .error e => .error e
  | .ok s =>
    if s.groups.isEmpty then .ok ⟨s.tokens.reverse, options.slashesAreLiteral⟩
    else .error .groupNotClosed

/-- The fault of a pattern, in words and with the pattern. -/
def GlobFault.describe (fault : GlobFault) (pattern : String) : String :=
  "error parsing glob '" ++ pattern ++ "': " ++ fault.message

end Concordance
