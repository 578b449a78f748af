import Concordance.Glob.Form
import Concordance.Path
import Concordance.Text.Blank
import Concordance.Text.Lines

/-!
Rules of ignore files: which paths below their directory are ignored.

A line is a pattern. Without a slash in it, it is matched against every name in a path, else against
the whole path. A line with `!` in front takes back what an earlier line ignores, and one with a
slash at its end is for directories only. The last rule that matches decides.
-/

namespace Concordance

open Text

/-- A rule of an ignore file. -/
structure IgnoreRule where
  glob : Glob
  /-- The rule takes back what an earlier one ignores. -/
  keeps : Bool
  /-- The rule is for directories only. -/
  onlyDirectories : Bool

namespace IgnoreRule

/-- The text without the front `mark`, and whether it had it. -/
def takeMark (mark : Char) : List Char → Bool × List Char
  | c :: cs => if c = mark then (true, cs) else (false, c :: cs)
  | [] => (false, [])

/-- The marks in front of a pattern: whether it keeps, whether it starts at the directory of the
file, and the pattern. A backslash takes the meaning from a mark. -/
def leadingMarks (line : List Char) : Bool × Bool × List Char :=
  match line with
  | '\\' :: '!' :: rest => (false, false, '!' :: rest)
  | '\\' :: '#' :: rest => (false, false, '#' :: rest)
  | _ =>
    let (keeps, rest) := takeMark '!' line
    let (anchored, rest) := takeMark '/' rest
    (keeps, anchored, rest)

/-- The pattern without a slash at its end, or a backslash and a slash, and whether it had one. -/
def trailingSlash (pattern : List Char) : Bool × List Char :=
  match stripBack? ['/'] pattern with
  | none => (false, pattern)
  | some rest => (true, (stripBack? ['\\'] rest).getD rest)

/-- The pattern for whole paths: one without a slash is for every directory, and one for all that is
in a directory is not for the directory itself. -/
def wholePath (anchored : Bool) (pattern : List Char) : List Char :=
  let pattern :=
    if anchored || pattern.contains '/' || pattern == ['*', '*'] then pattern
    else ['*', '*', '/'] ++ pattern
  if ['/', '*', '*'].isSuffixOf pattern then pattern ++ ['/', '*'] else pattern

/-- The rule of a line. Comments, empty lines and patterns that cannot be read are no rules. -/
def ofLine? (line : List Char) : Option IgnoreRule :=
  if line.head? == some '#' then none
  else
    let line := if ['\\', ' '].isSuffixOf line then line else trimEnd line
    if line.isEmpty then none
    else
      let (keeps, anchored, rest) := leadingMarks line
      let (onlyDirectories, pattern) := trailingSlash rest
      match Glob.read (wholePath anchored pattern) ⟨true, true⟩ with
      | .ok glob => some ⟨glob, keeps, onlyDirectories⟩
      | .error _ => none

end IgnoreRule

/-- The lines of bytes, with the line feed that ends each. -/
def byteLines (bytes : List UInt8) : List (List UInt8) :=
  cutAfter 10 bytes

/-- A line without the line feed, or the carriage return and line feed, that ends it. -/
def dropByteLineEnd (line : List UInt8) : List UInt8 :=
  match line.reverse with
  | 10 :: 13 :: rest => rest.reverse
  | 10 :: rest => rest.reverse
  | _ => line

/-- The texts of lines, up to the first that is none. -/
def textLines : List (List UInt8) → List (List Char)
  | [] => []
  | line :: rest =>
    match String.fromUTF8? ⟨line.toArray⟩ with
    | some text => text.toList :: textLines rest
    | none => []

/-- The lines without the byte order mark at the very start. -/
def dropByteOrderMark : List (List Char) → List (List Char)
  | [] => []
  | first :: rest => first.dropWhile (· == Char.ofNat 0xfeff) :: rest

/-- The rules in the bytes of an ignore file. -/
def IgnoreRule.inFile (content : ByteArray) : List IgnoreRule :=
  let lines := (byteLines content.data.toList).map dropByteLineEnd
  (dropByteOrderMark (textLines lines)).filterMap IgnoreRule.ofLine?

/-- The rules that can be used together: none if a pattern is nested too deep. -/
def IgnoreRule.usable (rules : List IgnoreRule) : List IgnoreRule :=
  if rules.any (·.glob.isTooDeep) then [] else rules

/-- The path ends with two dots in place of a name. -/
def endsAbove (path : List Char) : Bool :=
  path == ['.', '.'] || ['/', '.', '.'].isSuffixOf path

/-- The rule applies to the path. A path without a name at its end has none for a pattern that asks
for one. -/
def IgnoreRule.applies (r : IgnoreRule) (path : List Char) (isDirectory : Bool) : Bool :=
  (isDirectory || !r.onlyDirectories) && !(r.glob.asksName && endsAbove path) &&
    r.glob.isMatch path

/-- The path is ignored: the last rule that applies to it does not keep it. -/
def isIgnored (rules : List IgnoreRule) (path : List Char) (isDirectory : Bool) : Bool :=
  match rules.reverse.find? (·.applies path isDirectory) with
  | some rule => !rule.keeps
  | none => false

end Concordance
