import Concordance.Reference.Basic

/-!
Uses in JavaScript, among them the look-ups of elements by class, id or selector.
-/

namespace Concordance.JavaScript

open Text Pattern

/-- A call that listens to an event, up to its argument. -/
def listens : Pattern :=
  all [keyword ["addEventListener", "removeEventListener", ".on", ".one", ".off"], blanks,
    literal "(", blanks, .textEnd]

/-- A call that fires an event, up to its argument. -/
def fires : Pattern :=
  all [
    oneOf [
      all [.wordEdge, literal "new", gap, optional (literal "Custom"), literal "Event"],
      literal ".trigger", literal ".triggerHandler", literal "dispatchEvent"],
    blanks, literal "(", blanks, .textEnd]

/-- A call that takes a selector, class names or an id. -/
def lookupCall : Pattern :=
  all [
    .group 1 (oneOf [
      .seq (literal "classList.") (keyword ["add", "remove", "toggle", "contains", "replace"]),
      .seq (keyword ["add", "remove", "toggle", "has"]) (literal "Class"),
      keyword ["getElementsByClassName", "getElementById", "querySelectorAll", "querySelector",
        "closest", "matches", "jQuery", "$"]]),
    blanks, literal "("]

/-- A string literal, perhaps after a comma. -/
def stringArgument : Pattern :=
  all [blanks, optional (literal ","), blanks,
    oneOf [
      all [literal "'", .group 1 (.run fun c => c != '\'' && c != '\n'), literal "'"],
      all [literal "\"", .group 2 (.run fun c => c != '"' && c != '\n'), literal "\""],
      all [literal "`", .group 3 (.run (· != '`')), literal "`"]]]

/-- What a look-up takes. -/
inductive LookupMode where
  /-- A selector. -/
  | selector
  /-- Class names with white space between them, in any number of arguments. -/
  | classList
  /-- An id. -/
  | id
deriving Repr, DecidableEq

/-- What the call takes. -/
def lookupMode (call : List Char) : LookupMode :=
  if call == "getElementById".toList then .id
  else if "classList.".toList.isPrefixOf call || "Class".toList.isSuffixOf call ||
      call == "getElementsByClassName".toList then .classList
  else .selector

/-- The string literals that are the arguments from the byte on, each with its value and the
value's offset. At most `count` are read. -/
def stringArguments : Nat → Nat → List Char → List (Nat × List Char)
  | 0, _, _ => []
  | count + 1, offset, text =>
    match stringArgument.matchHere? offset text with
    | none => []
    | some (m, rest) =>
      match m.group? 1 <|> m.group? 2 <|> m.group? 3 with
      | none => []
      | some g =>
        (g.start, sliceBytes (g.start - offset) (g.stop - offset) text) ::
          stringArguments count m.span.stop rest

/-- Where the value names the key, and the length of the name there. -/
def lookupHit? (mode : LookupMode) (key : SelectorKey) (value : List Char) : Option (Nat × Nat) :=
  match mode, key with
  | .selector, _ => (tokenOffsets key.token value).head?.map fun i => (i, byteLength key.token)
  | .classList, .className name => (classOffset? name value).map fun i => (i, byteLength name)
  | .id, .id name => (trimmedOffset? name value).map fun i => (i, byteLength name)
  | _, _ => none

/-- The look-ups of the key, then the markup attributes that name it. -/
def selectorCandidates (s : SourceText) (key : SelectorKey) : List Candidate :=
  let lookups := (lookupCall.searchAll 0 s.chars).flatMap fun m =>
    match m.group? 1 with
    | none => []
    | some g =>
      let mode := lookupMode (s.slice g.start g.stop)
      let text := dropBytes m.span.stop s.chars
      let count := if mode = .classList then text.length else 1
      (stringArguments count m.span.stop text).filterMap fun (offset, value) =>
        (lookupHit? mode key value).map fun (i, size) =>
          .sure (offset + i) (offset + i + size) .reference
  lookups ++ markupCandidates s key

/-- The line of the byte imports names. -/
def onImportLine (s : SourceText) (offset : Nat) : Bool :=
  let line := lineAt s offset
  "import ".toList.isPrefixOf line || "export \x7b".toList.isPrefixOf line ||
    contains "require(".toList line

/-- How a class is used at a place. -/
def classUse (s : SourceText) (start stop : Nat) : UsageKind :=
  let before := trimEnd (s.beforeOnLine start)
  if endsWithWord "new".toList before || (s.afterOnLine stop).head? == some '.' then .call
  else if endsWithWord "extends".toList before then .extend
  else if onImportLine s start then .imported
  else .reference

/-- How a function is used at a place, unless a member or a declaration is named there. -/
def functionUse? (s : SourceText) (start stop : Nat) : Option UsageKind :=
  let before := trimEnd (s.beforeOnLine start)
  if before.getLast? == some '.' || endsWithWord "function".toList before then none
  else if onImportLine s start then some .imported
  else if isCalled s stop then some .call
  else some .reference

/-- How a method is used at a place, if a member is named there. -/
def methodUse? (s : SourceText) (start stop : Nat) : Option UsageKind :=
  if (trimEnd (s.beforeOnLine start)).getLast? == some '.' then
    some (if isCalled s stop then .call else .reference)
  else none

/-- How an event is used after the text. -/
def eventUse (before : List Char) : UsageKind :=
  if listens.matchesIn before then .reference
  else if fires.matchesIn before then .call
  else .reference

/-- The places that may use the symbol. -/
def candidates (s : SourceText) (symbol : Symbol) : List Candidate :=
  let name := symbol.name.toList
  let size := byteLength name
  let byName (use? : Nat → Nat → Option UsageKind) : List Candidate :=
    (wordOffsets name s.chars).map fun start =>
      ⟨start, start + size, fun _ => use? start (start + size)⟩
  match symbol.kind with
  | .type => byName fun start stop => some (classUse s start stop)
  | .function => byName (functionUse? s)
  | .method => byName (methodUse? s)
  | .event => (quotedOffsets s ['\'', '"', '`'] name).map fun start =>
    ⟨start, start + size, fun _ => some (eventUse (beforeQuote s start))⟩
  | .selector =>
    match selectorKey? name with
    | some key => selectorCandidates s key
    | none => []
  | .variable => (tokenOffsets name s.chars).map fun start => .sure start (start + size) .reference
  | .file => []

end Concordance.JavaScript
