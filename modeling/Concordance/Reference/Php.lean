import Concordance.Definition.Php
import Concordance.Path
import Concordance.Reference.Basic

/-!
Uses in PHP. A class or function is also used by a statement that includes its file.
-/

namespace Concordance.Php

open Text Pattern

/-- A statement that includes a file by its name. -/
def inclusion : Pattern :=
  let plain : Pattern := .run fun c => c != ';' && c != '\n' && c != '\'' && c != '"'
  all [.wordEdge, keyword ["require", "include"], optional (literal "_once"), .wordEdge,
    .many false (.seq plain quote), plain, quote, .group 1 unquoted, quote]

/-- A list of implemented interfaces that runs up to the end. -/
def implementsList : Pattern :=
  all [.wordEdge, literal "implements", gap,
    .run fun c => isWordChar c || c == '\\' || c == ',' || isBlank c, .textEnd]

/-- A call that fires a hook, up to its argument. -/
def firesHook : Pattern :=
  all [.wordEdge, keyword ["do_action", "do_action_ref_array", "apply_filters"], blanks,
    literal "(", blanks, .textEnd]

/-- Statements that include the file with the symbol. -/
def inclusions (s : SourceText) (symbol : Symbol) : List Candidate :=
  let target := baseName symbol.filePath.toList
  (inclusion.searchAll 0 s.chars).filterMap fun m =>
    (m.group? 1).bind fun g =>
      if baseName (s.slice g.start g.stop) == target then some (.sure g.start g.stop .inclusion)
      else none

/-- An import statement starts the line of the byte. -/
def onUseLine (s : SourceText) (offset : Nat) : Bool :=
  "use ".toList.isPrefixOf (lineAt s offset)

/-- How a class is used at a place. -/
def classUse (s : SourceText) (start stop : Nat) : UsageKind :=
  let before := stripQualifier (s.beforeOnLine start)
  if endsWithWord "new".toList before || "::".toList.isPrefixOf (trimStart (s.afterOnLine stop)) then
    .call
  else if endsWithWord "extends".toList before then .extend
  else if implementsList.matchesIn (s.beforeOnLine start) then .implement
  else if onUseLine s start then .imported
  else .reference

/-- A member of an object or a class is named after the text. -/
def accessesMember (before : List Char) : Bool :=
  "->".toList.isSuffixOf before || "::".toList.isSuffixOf before

/-- The occurrence stands between two equal quotes. -/
def isQuoted (o : Occurrence) : Bool :=
  (o.before == some '\'' || o.before == some '"') && o.before == o.after.head?

/-- How a function is used at a place, unless a member or a declaration is named there. -/
def functionUse? (s : SourceText) (o : Occurrence) (stop : Nat) : Option UsageKind :=
  let before := trimEnd (s.beforeOnLine o.offset)
  if accessesMember before || endsWithWord "function".toList before then none
  else if isCalled s stop then some .call
  else if isQuoted o then some .reference
  else if onUseLine s o.offset then some .imported
  else some .reference

/-- How a method is used at a place, if it is. -/
def methodUse? (s : SourceText) (o : Occurrence) (stop : Nat) : Option UsageKind :=
  let member := accessesMember (trimEnd (s.beforeOnLine o.offset))
  if member && isCalled s stop then some .call
  else if member || isQuoted o then some .reference
  else none

/-- How a constant is used at a place, unless a property is named there. -/
def constantUse? (s : SourceText) (o : Occurrence) : Option UsageKind :=
  if "->".toList.isSuffixOf (trimEnd (s.beforeOnLine o.offset)) then none else some .reference

/-- The places that may use the symbol. -/
def candidates (s : SourceText) (symbol : Symbol) : List Candidate :=
  let name := symbol.name.toList
  let size := byteLength name
  let byName (use? : Occurrence → Nat → Option UsageKind) : List Candidate :=
    (wholeOccurrences name s.chars).map fun o =>
      ⟨o.offset, o.offset + size, fun _ => use? o (o.offset + size)⟩
  match symbol.kind with
  | .type => inclusions s symbol ++ byName fun o stop => some (classUse s o.offset stop)
  | .function => inclusions s symbol ++ byName (functionUse? s)
  | .method => byName (methodUse? s)
  | .variable => byName fun o _ => constantUse? s o
  | .event => (quotedOffsets s ['\'', '"'] name).map fun start =>
    ⟨start, start + size, fun _ =>
      some (if firesHook.matchesIn (beforeQuote s start) then .call else .reference)⟩
  | .selector =>
    match selectorKey? name with
    | some key => markupCandidates s key
    | none => []
  | .file => []

end Concordance.Php
