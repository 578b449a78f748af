import Concordance.Keyed
import Concordance.Pattern
import Concordance.Text.DecimalDigit
import Concordance.Text.Lines
import Concordance.Text.Number

/-!
Entries of a doc block: each names a file that uses the definition, the lines it does so on, and
how.

An entry is written `<path>:<line>,<line> (<kind>)`. Entries are kept as texts, because a text
that is no entry is kept too. Merging by path keeps for each path the text with the most lines, the
later one of equals.
-/

namespace Concordance

open Text

/-- What an entry says. -/
structure Entry where
  path : List Char
  lines : List Nat
  kind : Option (List Char)
deriving Repr, DecidableEq

namespace Entry

/-- A digit of any script, at least one. -/
def digits : Pattern :=
  .someOf isDecimalDigit

/-- The form of an entry: path, lines and kind are the groups 1, 2 and 3. -/
def form : Pattern :=
  open Pattern in
  let inLine : Pattern := .one (· != '\n')
  all [.group 1 (.seq inLine (.many false inLine)), literal ":",
    .group 2 (.seq digits (.many true (all [blanks, literal ",", blanks, digits]))),
    optional (all [gap, literal "(", .group 3 (someOf fun c => c.isAlpha || c == '_'),
      literal ")"]),
    .textEnd]

/-- The entry that a text writes. A line number that is no 64-bit number is left out. -/
def parse? (text : List Char) : Option Entry :=
  let text := trim text
  match form.matchHere? 0 text with
  | none => none
  | some (m, _) =>
    let groupText (n : Nat) : Option (List Char) :=
      (m.group? n).map fun g => sliceBytes g.start g.stop text
    match groupText 1, groupText 2 with
    | some path, some lines =>
      some ⟨path, (lines.splitOn ',').filterMap fun l => readNumber? (trim l), groupText 3⟩
    | _, _ => none

/-- The entry as it is written. -/
def render (e : Entry) : List Char :=
  e.path ++ [':'] ++ List.intercalate [','] (e.lines.map decimal) ++
    match e.kind with
    | some kind => " (".toList ++ kind ++ [')']
    | none => []

/-- The tag before an entry. -/
def tag : List Char :=
  "@usedby".toList

/-- The entry that a line carries after the tag, without the end of a comment. -/
def inLine? (line : List Char) : Option (List Char) :=
  match fromFirst? tag line with
  | none => none
  | some found =>
    let rest := trim (found.drop tag.length)
    let rest := trim ((stripBack? "*/".toList rest).getD rest)
    if rest.isEmpty then none else some rest

/-- The entries in a text, in order. -/
def inText (text : List Char) : List (List Char) :=
  (Text.lines text).filterMap inLine?

/-- A text with the entry it writes. -/
structure Read where
  entry : Entry
  text : List Char
deriving Repr, DecidableEq

/-- Of two texts for one path the one with more lines, the later one of equals. -/
def better (a b : Read) : Read :=
  if a.entry.lines.length > b.entry.lines.length then a else b

/-- The texts without white space at their ends, empty ones left out. -/
def cleaned (texts : List (List Char)) : List (List Char) :=
  (texts.map trim).filter (!·.isEmpty)

/-- The texts that write an entry. -/
def readable (texts : List (List Char)) : List Read :=
  texts.filterMap fun t => (parse? t).map (⟨·, t⟩)

/-- The best text for the path of `first`. -/
def bestFor (all : List Read) (first : Read) : Read :=
  (all.filter (·.entry.path == first.entry.path)).foldl better first

/-- One text for a path, in the order of the paths, then each text that writes no entry once. -/
def mergeByPath (texts : List (List Char)) : List (List Char) :=
  let texts := cleaned texts
  let all := readable texts
  let firsts := (firstPerKey (·.entry.path) [] all).mergeSort
    fun a b => Text.upTo a.entry.path b.entry.path
  firsts.map (fun r => (bestFor all r).text) ++
    firstPerKey id [] (texts.filter fun t => (parse? t).isNone)

/-- What texts are sorted by: those with an entry first, by path and first line, then by the text
itself. -/
structure SortKey where
  unread : Bool
  path : List Char
  line : Nat
  text : List Char
deriving Repr, DecidableEq

/-- The sort key of a text. -/
def sortKey (text : List Char) : SortKey :=
  match parse? text with
  | some e => ⟨false, e.path, e.lines.head?.getD 0, text⟩
  | none => ⟨true, [], 0, text⟩

/-- The order of sort keys. -/
def SortKey.upTo (a b : SortKey) : Bool :=
  if a.unread != b.unread then b.unread
  else if a.path ≠ b.path then Text.upTo a.path b.path
  else if a.line ≠ b.line then a.line < b.line
  else Text.upTo a.text b.text

/-- Each text once, in the order of paths and first lines. -/
def mergeExact (texts : List (List Char)) : List (List Char) :=
  let keyed := (cleaned texts).map sortKey
  dropRepeats ((keyed.mergeSort SortKey.upTo).map SortKey.text)

end Entry

end Concordance
