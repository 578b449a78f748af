import Concordance.Reading

/-!
What a search for uses reads of a text as it stands, comments included.

Statements that include a file, attributes of markup, look-ups of elements and rules that extend a
selector are found by patterns in the whole text. Of the place where they name something it is asked
afterwards whether it is in a comment; of the rest it is not. `Php.IncludesAt` and
`Language.SelectsAt` say where these places are. Main statements: `Php.candidatesAt_inclusions` and
`Language.candidatesAt_selector`.
-/

namespace Concordance

open Text

/-- The candidates are uses of one kind, and they start at these places. -/
structure CandidatesAt (candidates : List Candidate) (kind : UsageKind) (place : Nat → Prop) :
    Prop where
  kind : ∀ c ∈ candidates, c.use? () = some kind
  places : ∀ n, n ∈ candidates.map Candidate.start ↔ place n

variable {s : SourceText} {symbol : Symbol} {key : SelectorKey}

/-- A statement that includes the file of the symbol names it at the byte. -/
def Php.IncludesAt (s : SourceText) (symbol : Symbol) (n : Nat) : Prop :=
  ∃ m ∈ inclusion.searchAll 0 s.chars, ∃ path ∈ m.group? 1,
    baseName (s.slice path.start path.stop) = baseName symbol.filePath.toList ∧ path.start = n

theorem Php.candidatesAt_inclusions :
    CandidatesAt (inclusions s symbol) .inclusion (IncludesAt s symbol) := by
  have hmem : ∀ c, c ∈ inclusions s symbol ↔ ∃ m ∈ inclusion.searchAll 0 s.chars,
      ∃ path ∈ m.group? 1, baseName (s.slice path.start path.stop) = baseName symbol.filePath.toList ∧
        .sure path.start path.stop .inclusion = c := by
    intro c
    simp only [inclusions, List.mem_filterMap, Option.bind_eq_some_iff, beq_iff_eq,
      Option.ite_none_right_eq_some, Option.some.injEq, Option.mem_def]
  refine ⟨fun c hc => ?_, fun n => ?_⟩
  · obtain ⟨m, -, path, -, -, rfl⟩ := (hmem c).mp hc
    rfl
  · simp only [List.mem_map, hmem]
    constructor
    · rintro ⟨c, ⟨m, hm, path, hpath, hbase, rfl⟩, rfl⟩
      exact ⟨m, hm, path, hpath, hbase, rfl⟩
    · rintro ⟨m, hm, path, hpath, hbase, rfl⟩
      exact ⟨_, ⟨m, hm, path, hpath, hbase, rfl⟩, rfl⟩

section Markup

/-- The value of an attribute names the key at the byte: an id is the whole value, a class one of its
words. -/
def MarkupHit (attributeName value : List Char) (key : SelectorKey) (i : Nat) : Prop :=
  match key with
  | .id name => attributeName = "id".toList ∧ trimmedOffset? name value = some i
  | .className name => attributeName ≠ "id".toList ∧ classOffset? name value = some i

/-- An attribute of markup names the key at the byte. -/
def MarkupAt (s : SourceText) (key : SelectorKey) (n : Nat) : Prop :=
  ∃ m ∈ markupAttribute.searchAll 0 s.chars, ∃ named ∈ m.group? 1,
    ∃ value ∈ m.group? 2 <|> m.group? 3, ∃ i,
      MarkupHit (s.slice named.start named.stop) (s.slice value.start value.stop) key i ∧
        value.start + i = n

theorem mem_markupCandidates_iff {c : Candidate} : c ∈ markupCandidates s key ↔
    ∃ m ∈ markupAttribute.searchAll 0 s.chars, ∃ named ∈ m.group? 1,
      ∃ value ∈ m.group? 2 <|> m.group? 3, ∃ i,
        MarkupHit (s.slice named.start named.stop) (s.slice value.start value.stop) key i ∧
          .sure (value.start + i) (value.start + i + byteLength key.name) .reference = c := by
  rw [markupCandidates, List.mem_filterMap]
  refine exists_congr fun m => and_congr_right fun _ => ?_
  cases m.group? 1 with
  | none => simp
  | some named =>
    cases m.group? 2 <|> m.group? 3 with
    | none => simp
    | some value =>
      simp only [Option.map_eq_some_iff, Option.mem_def, Option.some.injEq, exists_eq_left']
      refine exists_congr fun i => and_congr_left fun _ => ?_
      by_cases hid : s.slice named.start named.stop = "id".toList
      · cases key <;> simp [MarkupHit, hid]
      · rw [beq_false_of_ne hid]
        cases key <;> simp only [MarkupHit, hid, ne_eq, not_false_iff, true_and, false_and, reduceCtorEq]

theorem candidatesAt_markupCandidates :
    CandidatesAt (markupCandidates s key) .reference (MarkupAt s key) := by
  refine ⟨fun c hc => ?_, fun n => ?_⟩
  · obtain ⟨m, -, named, -, value, -, i, -, rfl⟩ := mem_markupCandidates_iff.mp hc
    rfl
  · simp only [List.mem_map, mem_markupCandidates_iff]
    constructor
    · rintro ⟨c, ⟨m, hm, named, hnamed, value, hvalue, i, hhit, rfl⟩, rfl⟩
      exact ⟨m, hm, named, hnamed, value, hvalue, i, hhit, rfl⟩
    · rintro ⟨m, hm, named, hnamed, value, hvalue, i, hhit, rfl⟩
      exact ⟨_, ⟨m, hm, named, hnamed, value, hvalue, i, hhit, rfl⟩, rfl⟩

end Markup

namespace JavaScript

/-- The string literals that a look-up takes, each with its offset. -/
def lookupArguments (s : SourceText) (mode : LookupMode) (m : Match) : List (Nat × List Char) :=
  let text := dropBytes m.span.stop s.chars
  stringArguments (if mode = .classList then text.length else 1) m.span.stop text

/-- A look-up of elements names the key at the byte. -/
def LooksUpAt (s : SourceText) (key : SelectorKey) (n : Nat) : Prop :=
  ∃ m ∈ lookupCall.searchAll 0 s.chars, ∃ call ∈ m.group? 1,
    ∃ mode, mode = lookupMode (s.slice call.start call.stop) ∧
      ∃ argument ∈ lookupArguments s mode m, ∃ hit ∈ lookupHit? mode key argument.2,
        argument.1 + hit.1 = n

theorem mem_selectorCandidates_iff {c : Candidate} : c ∈ selectorCandidates s key ↔
    (∃ m ∈ lookupCall.searchAll 0 s.chars, ∃ call ∈ m.group? 1,
      ∃ mode, mode = lookupMode (s.slice call.start call.stop) ∧
        ∃ argument ∈ lookupArguments s mode m, ∃ hit ∈ lookupHit? mode key argument.2,
          .sure (argument.1 + hit.1) (argument.1 + hit.1 + hit.2) .reference = c) ∨
      c ∈ markupCandidates s key := by
  rw [selectorCandidates, List.mem_append, List.mem_flatMap]
  refine or_congr_left (exists_congr fun m => and_congr_right fun _ => ?_)
  cases m.group? 1 with
  | none => simp
  | some call =>
    simp only [List.mem_filterMap, Option.map_eq_some_iff, Option.mem_def, Option.some.injEq,
      exists_eq_left', exists_eq_left]
    rfl

theorem candidatesAt_selectorCandidates :
    CandidatesAt (selectorCandidates s key) .reference
      fun n => LooksUpAt s key n ∨ MarkupAt s key n := by
  refine ⟨fun c hc => ?_, fun n => ?_⟩
  · rcases mem_selectorCandidates_iff.mp hc with
      ⟨m, -, call, -, mode, -, argument, -, hit, -, rfl⟩ | hc
    · rfl
    · exact candidatesAt_markupCandidates.kind c hc
  · rw [List.mem_map, ← candidatesAt_markupCandidates.places, List.mem_map]
    simp only [mem_selectorCandidates_iff, or_and_right, exists_or]
    refine or_congr_left ⟨?_, ?_⟩
    · rintro ⟨c, ⟨m, hm, call, hcall, mode, hmode, argument, hargument, hit, hhit, rfl⟩, rfl⟩
      exact ⟨m, hm, call, hcall, mode, hmode, argument, hargument, hit, hhit, rfl⟩
    · rintro ⟨m, hm, call, hcall, mode, hmode, argument, hargument, hit, hhit, rfl⟩
      exact ⟨_, ⟨m, hm, call, hcall, mode, hmode, argument, hargument, hit, hhit, rfl⟩, rfl⟩

end JavaScript

/-- A rule that extends selectors holds the key at the byte. -/
def Stylesheet.ExtendsAt (s : SourceText) (key : SelectorKey) (n : Nat) : Prop :=
  ∃ m ∈ extension.searchAll 0 s.chars, ∃ list ∈ m.group? 1,
    ∃ i ∈ tokenOffsets key.token (s.slice list.start list.stop), list.start + i = n

theorem Stylesheet.mem_extensions_iff {c : Candidate} : c ∈ extensions s key ↔
    ∃ m ∈ extension.searchAll 0 s.chars, ∃ list ∈ m.group? 1,
      ∃ i ∈ tokenOffsets key.token (s.slice list.start list.stop),
        .sure (list.start + i) (list.start + i + byteLength key.token) .extend = c := by
  rw [extensions, List.mem_flatMap]
  refine exists_congr fun m => and_congr_right fun _ => ?_
  cases m.group? 1 with
  | none => simp
  | some list => simp only [List.mem_map, Option.mem_def, Option.some.injEq, exists_eq_left']

theorem Stylesheet.candidatesAt_extensions :
    CandidatesAt (extensions s key) .extend (ExtendsAt s key) := by
  refine ⟨fun c hc => ?_, fun n => ?_⟩
  · obtain ⟨m, -, list, -, i, -, rfl⟩ := mem_extensions_iff.mp hc
    rfl
  · simp only [List.mem_map, mem_extensions_iff]
    constructor
    · rintro ⟨c, ⟨m, hm, list, hlist, i, hi, rfl⟩, rfl⟩
      exact ⟨m, hm, list, hlist, i, hi, rfl⟩
    · rintro ⟨m, hm, list, hlist, i, hi, rfl⟩
      exact ⟨_, ⟨m, hm, list, hlist, i, hi, rfl⟩, rfl⟩

namespace Language

/-- What the language reads of the text as it stands names the key of a selector at the byte. -/
def SelectsAt (language : Language) (s : SourceText) (key : SelectorKey) (n : Nat) : Prop :=
  match language with
  | .php => MarkupAt s key n
  | .javascript => JavaScript.LooksUpAt s key n ∨ MarkupAt s key n
  | .css => Stylesheet.ExtendsAt s key n

/-- How a selector is used where it is named. -/
def selectorUse : Language → UsageKind
  | .css => .extend
  | .php | .javascript => .reference

theorem candidatesAt_selector (language : Language) (hkind : symbol.kind = .selector)
    (hkey : selectorKey? symbol.name.toList = some key) :
    CandidatesAt (language.candidates s symbol) language.selectorUse (language.SelectsAt s key) := by
  cases language with
  | php =>
    simp only [candidates, Php.candidates, hkind, hkey]
    exact candidatesAt_markupCandidates
  | javascript =>
    simp only [candidates, JavaScript.candidates, hkind, hkey]
    exact JavaScript.candidatesAt_selectorCandidates
  | css =>
    simp only [candidates, Stylesheet.candidates, hkind, hkey]
    exact Stylesheet.candidatesAt_extensions

theorem candidates_of_selectorKey?_eq_none (language : Language) (hkind : symbol.kind = .selector)
    (hkey : selectorKey? symbol.name.toList = none) : language.candidates s symbol = [] := by
  cases language <;>
    simp only [candidates, Php.candidates, JavaScript.candidates, Stylesheet.candidates, hkind, hkey]

end Language

end Concordance
