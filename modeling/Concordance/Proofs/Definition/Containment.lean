import Concordance.Proofs.Definition.Moved
import Concordance.Proofs.Definition.Site

/-!
Which definitions of a file stand within which others.

The names of classes ascend, and each body lies behind the name of its class. So where no class is read
that lies in an earlier body, no body covers any of the names (`not_covered_keptClasses`). Methods are
looked for between the braces of a body; functions and constants are kept outside all bodies. Main
statements: `Symbol.MemberOf.encloses` (a member stands within the range of its class),
`functionsApart_outermost` and `Language.containment_definitions`.
-/

namespace Concordance

open Text Pattern

variable {s : SourceText} {path : String} {a b : Nat}

section Order

/-- The place lies in the range and is none of its ends. -/
def Range.Encloses (r : Range) (p : Position) : Prop :=
  r.start.before p = true ∧ p.before r.stop = true

/-- Between bytes that lie between characters, to lie in a range is to lie between its ends. -/
theorem encloses_range_iff {start stop : Nat} (hstart : onBoundary start s.chars = true)
    (hstop : onBoundary stop s.chars = true) (ha : onBoundary a s.chars = true) :
    (s.range start stop).Encloses (s.positionAt a) ↔ start < a ∧ a < stop := by
  have hmax : onBoundary (max stop start) s.chars = true := by
    rw [Nat.max_def]
    split
    · exact hstart
    · exact hstop
  unfold Range.Encloses SourceText.range
  rw [before_positionAt_iff hstart ha, before_positionAt_iff ha hmax]
  omega

end Order

section Stretch

/-- The name starts between the two bytes, and lies between characters. -/
structure FoundName.Inside (n : FoundName) (s : SourceText) (start stop : Nat) : Prop where
  boundary : onBoundary n.start s.chars = true
  boundary_stop : onBoundary n.stop s.chars = true
  start_le : start ≤ n.start
  lt_stop : n.start < stop
  stop_eq : n.stop = n.start + byteLength n.text

variable {p body : Pattern} {front back : List Pattern} {f : Char → Bool} {n : FoundName}
  {start stop : Nat}

theorem inside_of_mem_namesIn (hp : p.Finds front body back f)
    (hstart : onBoundary start s.chars = true) (h : n ∈ s.namesIn p start stop) :
    n.Inside s start stop := by
  rw [namesIn_eq_textNames hp hstart] at h
  obtain ⟨m, -, pre, post, hslice, hcuts, hn, hnstop, -⟩ := exists_of_mem_textNames hp h
  have hbefore : onBoundary (byteLength pre) (s.slice start stop) = true := by
    rw [hslice, List.append_assoc]
    exact onBoundary_byteLength pre (n.text ++ post)
  have hbehind : onBoundary (byteLength (pre ++ n.text)) (s.slice start stop) = true := by
    rw [hslice]
    exact onBoundary_byteLength (pre ++ n.text) post
  have hlt : byteLength pre < stop - start := by
    obtain ⟨c, cs, hname⟩ := List.exists_cons_of_ne_nil hcuts.nonempty
    rw [hname, List.append_assoc, List.cons_append] at hslice
    exact byteLength_lt_of_takeBytes hslice
  refine ⟨hn ▸ onBoundary_add_slice hstart hbefore, ?_, by omega, by omega, by rw [hnstop, hn]⟩
  rw [hnstop, Nat.add_assoc, ← byteLength_append]
  exact onBoundary_add_slice hstart hbehind

theorem inside_of_mem_names (hp : p.Finds front body back f) (h : n ∈ s.names p) :
    n.Inside s 0 s.length :=
  inside_of_mem_namesIn hp (onBoundary_zero s.chars) h

theorem FoundName.Inside.standsAt {symbol : Symbol} (h : n.Inside s start stop)
    (hposition : symbol.position = s.positionAt n.start) : symbol.StandsAt s n.start :=
  ⟨h.boundary, hposition⟩

end Stretch

section Braces

variable {offset parens start stop : Nat}

theorem findBlockOpen?_of_mem_spans {span : Span}
    (h : span ∈ (s.bodyFrom offset parens).spans s.length) :
    s.findBlockOpen? offset parens = some span.start := by
  unfold SourceText.bodyFrom at h
  split at h
  · cases h
  · next o hopen =>
    split at h
    · obtain rfl := List.mem_singleton.mp h
      exact hopen
    · obtain rfl := List.mem_singleton.mp h
      exact hopen

/-- A body opens behind the place from which it is looked for. -/
theorem le_start_of_mem_spans (hoffset : onBoundary offset s.chars = true) {span : Span}
    (h : span ∈ (s.bodyFrom offset parens).spans s.length) : offset ≤ span.start := by
  have hopen := findBlockOpen?_of_mem_spans h
  rw [SourceText.findBlockOpen?, SourceText.searchFrom_spotAt] at hopen
  obtain ⟨x, hx, -, hstart⟩ := searchList_blockOpen hopen
  have hle : (s.spotAt offset).offset ≤ x.offset := offset_le_of_mem_codeIn hx
  rwa [SourceText.spotAt, (offset_spotAt_eq_iff offset s.chars).mpr hoffset, hstart] at hle

theorem onBoundary_of_opened (h : s.bodyFrom offset parens = .closed start stop) :
    onBoundary (start + 1) s.chars = true := by
  obtain ⟨pre, rest, hchars, hstart⟩ := exists_bodyFrom h
  exact onBoundary_iff.mpr ⟨pre ++ ['{'], rest, hchars, hstart⟩

theorem matchingBrace?_of_closed (h : s.bodyFrom offset parens = .closed start stop) :
    s.matchingBrace? start = some stop := by
  unfold SourceText.bodyFrom at h
  split at h
  · cases h
  · split at h
    · cases h
    · next hclose =>
      obtain ⟨rfl, rfl⟩ := Body.closed.inj h
      exact hclose

/-- A block ends right behind a brace. -/
theorem onBoundary_of_closed (h : s.bodyFrom offset parens = .closed start stop) :
    onBoundary (stop + 1) s.chars = true := by
  have hclose := matchingBrace?_of_closed h
  unfold SourceText.matchingBrace? at hclose
  dsimp only at hclose
  split at hclose
  · rw [SourceText.searchFrom_spotAt] at hclose
    obtain ⟨x, hx, hchar, hoffset⟩ := searchList_closingBrace hclose
    obtain ⟨pre, post, hchars, hpre⟩ := mem_codeFrom hx
    refine onBoundary_iff.mpr ⟨pre ++ ['}'], post, ?_, ?_⟩
    · rw [hchars, hchar, List.append_assoc]
      rfl
    · rw [byteLength_append, hpre, hoffset]
      rfl
  · cases hclose

theorem onBoundary_declarationEnd {default : Nat} (h : onBoundary default s.chars = true) :
    onBoundary ((s.bodyFrom offset parens).declarationEnd default) s.chars = true := by
  cases hbody : s.bodyFrom offset parens with
  | missing => exact h
  | unclosed start => exact h
  | closed start stop => exact onBoundary_of_closed hbody

end Braces

section Classes

variable {p body : Pattern} {front back : List Pattern} {f : Char → Bool} {nested : Bool}
  {bodies : List Span} {n n' : FoundName}

/-- The body of a class lies behind its name. -/
theorem start_le_of_mem_spans (hp : p.Finds front body back f) (hn : n ∈ s.names p) {span : Span}
    (h : span ∈ (s.bodyFrom n.stop 0).spans s.length) : n.start ≤ span.start := by
  have hinside := inside_of_mem_names hp hn
  have hle := le_start_of_mem_spans hinside.boundary_stop h
  have hstop := hinside.stop_eq
  omega

/-- No class that is read lies in the body of any. -/
theorem not_covered_keptClasses (hp : p.Finds front body back f)
    (hn : n ∈ keptClasses s false [] (s.names p)) (hn' : n' ∈ keptClasses s false [] (s.names p)) :
    ∀ span ∈ (s.bodyFrom n.stop 0).spans s.length, span.strictlyCovers n'.start = false := by
  have hsub := keptClasses_sublist s false [] (s.names p)
  have hahead : ∀ m ∈ keptClasses s false [] (s.names p), ∀ start ≤ m.start,
      ∀ span ∈ (s.bodyFrom m.stop 0).spans s.length, span.strictlyCovers start = false := by
    intro m hm start hle span hspan
    have hbehind := start_le_of_mem_spans hp (hsub.subset hm) hspan
    simp only [Span.strictlyCovers, Bool.and_eq_false_iff, decide_eq_false_iff_not]
    omega
  -- earlier names are passed by the body's start, later ones were checked against the body
  refine List.Pairwise.forall_of_forall_of_flip (fun m hm => hahead m hm m.start le_rfl)
    (pairwise_keptClasses s [] (s.names p)) ?_ hn hn'
  have hordered := (pairwise_start_namesIn hp s 0 s.length).sublist hsub
  exact hordered.imp_of_mem fun {m m'} _ hm' hlt => hahead m' hm' m.start hlt.le

/-- The definition belongs to the class with the name and stands between the two bytes. -/
structure Symbol.MemberOf (symbol : Symbol) (s : SourceText) (owner : FoundName)
    (start stop : Nat) : Prop where
  container : symbol.container = some (String.ofList owner.text)
  stands : ∃ offset, symbol.StandsAt s offset ∧ start < offset ∧ offset < stop

/-- A member stands within the range of its class. -/
theorem Symbol.MemberOf.encloses {m : Symbol} {start stop : Nat} (hm : m.MemberOf s n start stop)
    (hp : p.Finds front body back f) (hn : n ∈ keptClasses s nested bodies (s.names p))
    (hbody : s.bodyFrom n.stop 0 = .closed start stop) :
    m.container = some (classSymbol s path n).name ∧
      (classSymbol s path n).range.Encloses m.position := by
  obtain ⟨o, hstands, hstart, hstop⟩ := hm.stands
  have hname := (keptClasses_sublist ..).subset hn
  have hspan : ⟨start, stop⟩ ∈ (s.bodyFrom n.stop 0).spans s.length := by
    rw [hbody]
    exact List.mem_cons_self
  have hopen : n.start ≤ start := start_le_of_mem_spans hp hname hspan
  have hrange : (classSymbol s path n).range = s.range n.start (stop + 1) := by
    rw [classSymbol, hbody]
    rfl
  have hboundary := (inside_of_mem_names hp hname).boundary
  refine ⟨hm.container, ?_⟩
  rw [hrange, hstands.position, encloses_range_iff hboundary (onBoundary_of_closed hbody)
    hstands.boundary]
  omega

end Classes

section Files

/-- The stretch of the body of the class whose name stands at the byte, if a block opens behind the
name. A block that does not close goes on to the end of the text. -/
def SourceText.bodiesBehind (s : SourceText) (name : String) (offset : Nat) : List Span :=
  (s.bodyFrom (offset + byteLength name.toList) 0).spans s.length

/-- Every method names a class of the list that encloses it. -/
def MethodsInClasses (symbols : List Symbol) : Prop :=
  ∀ m ∈ symbols, m.kind = .method →
    ∃ c ∈ symbols, c.kind = .type ∧ m.container = some c.name ∧ c.range.Encloses m.position

/-- No class, function or variable stands in the body of a class. -/
def ClassBodiesClear (s : SourceText) (symbols : List Symbol) : Prop :=
  ∀ c ∈ symbols, c.kind = .type → ∀ d ∈ symbols, d.kind ∈ [.type, .function, .variable] →
    ∃ o o', c.StandsAt s o ∧ d.StandsAt s o' ∧
      ∀ body ∈ s.bodiesBehind c.name o, body.strictlyCovers o' = false

/-- No function stands in another. -/
def FunctionsApart (symbols : List Symbol) : Prop :=
  ∀ f ∈ symbols, f.kind = .function → ∀ g ∈ symbols, g.kind = .function →
    ¬ g.range.Encloses f.position

/-- Of functions that start within no other none stands within the range of another. -/
theorem functionsApart_outermost {found : List FoundFunction}
    (hboundary : ∀ g ∈ found, onBoundary g.name.start s.chars = true ∧
      onBoundary g.stop s.chars = true) :
    FunctionsApart ((outermostFunctions found).map fun g =>
      s.symbolAt path .function g.name.text g.name.start g.stop) := by
  intro d hd _ e he _ hencloses
  obtain ⟨f, hf, rfl⟩ := List.mem_map.mp hd
  obtain ⟨g, hg, rfl⟩ := List.mem_map.mp he
  obtain ⟨hf, houtermost⟩ := List.mem_filter.mp hf
  have hg := mem_of_mem_outermostFunctions hg
  obtain ⟨hstart, hstop⟩ := hboundary g hg
  have hbetween := (encloses_range_iff hstart hstop (hboundary f hf).1).mp hencloses
  rw [Bool.not_eq_true', List.any_eq_false] at houtermost
  exact houtermost g hg (by simpa using hbetween)

end Files

namespace Php

variable {symbol : Symbol} {bodies : List Span} {kind : SymbolKind}

/-- The classes that are read from a file. -/
def classes (s : SourceText) : List FoundName :=
  keptClasses s false [] (s.names classHead)

/-- The bodies of these classes. -/
def classBodies (s : SourceText) : List Span :=
  (classes s).flatMap fun n => (s.bodyFrom n.stop 0).spans s.length

/-- How a definition of the kind is read from the file. -/
inductive Defined (s : SourceText) (path : String) : SymbolKind → Symbol → Prop
  | type {n : FoundName} (hn : n ∈ classes s) : Defined s path .type (classSymbol s path n)
  | method {n : FoundName} {start stop : Nat} {symbol : Symbol} (hn : n ∈ classes s)
      (hbody : s.bodyFrom n.stop 0 = .closed start stop) (h : symbol ∈ methods s path n start stop) :
      Defined s path .method symbol
  | function {symbol : Symbol} (h : symbol ∈ functions s path (classBodies s)) :
      Defined s path .function symbol
  | constant {symbol : Symbol} (h : symbol ∈ constants s path (classBodies s)) :
      Defined s path .variable symbol
  | event {symbol : Symbol} (h : symbol ∈ readEvents s path (s.names firedHook)) :
      Defined s path .event symbol

theorem defined_of_mem_definitions (h : symbol ∈ (definitions s path).symbols)
    (hkind : symbol.kind = kind) : Defined s path kind symbol := by
  obtain ⟨-, hbodies⟩ := readClasses_eq s path false (methods s path) [] (s.names classHead)
  simp only [definitions, inReadingOrder, List.mem_mergeSort, List.mem_append, hbodies,
    List.nil_append, mem_readClasses_iff] at h
  subst hkind
  rcases h with ((⟨n, hn, rfl | ⟨start, stop, hbody, h⟩⟩ | h) | h) | h
  · exact .type hn
  · rw [kind_of_mem_methods h]
    exact .method hn hbody h
  · rw [(mem_functions h).1]
    exact .function h
  · rw [(mem_constants h).1]
    exact .constant h
  · obtain ⟨n, -, hevent, -⟩ := mem_readEvents h
    rw [hevent]
    exact .event h

theorem classSymbol_mem_definitions {n : FoundName} (hn : n ∈ classes s) :
    classSymbol s path n ∈ (definitions s path).symbols := by
  simp only [definitions, inReadingOrder, List.mem_mergeSort, List.mem_append]
  exact Or.inl (Or.inl (Or.inl (mem_readClasses_iff.mpr ⟨n, hn, Or.inl rfl⟩)))

theorem inside_of_mem_classes {n : FoundName} (hn : n ∈ classes s) : n.Inside s 0 s.length :=
  inside_of_mem_names finds_classHead ((keptClasses_sublist ..).subset hn)

theorem memberOf_of_mem_methods {owner : FoundName} {start stop : Nat}
    (hbody : s.bodyFrom owner.stop 0 = .closed start stop)
    (h : symbol ∈ methods s path owner start stop) : symbol.MemberOf s owner start stop := by
  obtain ⟨n, last, rfl, -, hn⟩ := exists_of_mem_methods h
  have hinside := inside_of_mem_namesIn finds_methodHead (onBoundary_of_opened hbody) hn
  exact ⟨rfl, n.start, hinside.standsAt rfl, hinside.start_le, hinside.lt_stop⟩

theorem methodsInClasses_definitions (s : SourceText) (path : String) :
    MethodsInClasses (definitions s path).symbols := by
  intro m hm hkind
  cases defined_of_mem_definitions hm hkind with
  | @method n start stop _ hn hbody h =>
    exact ⟨classSymbol s path n, classSymbol_mem_definitions hn, rfl,
      (memberOf_of_mem_methods hbody h).encloses finds_classHead hn hbody⟩

/-- Classes, functions and constants stand in no body of a class. -/
theorem Defined.exists_outside (h : Defined s path kind symbol)
    (hkind : kind ∈ [SymbolKind.type, .function, .variable]) :
    ∃ o, symbol.StandsAt s o ∧ ∀ span ∈ classBodies s, span.strictlyCovers o = false := by
  cases h with
  | @type n hn =>
    refine ⟨n.start, (inside_of_mem_classes hn).standsAt rfl, fun span hspan => ?_⟩
    obtain ⟨n', hn', hspan⟩ := List.mem_flatMap.mp hspan
    exact not_covered_keptClasses finds_classHead hn' hn span hspan
  | function h =>
    obtain ⟨n, hn, ⟨stop, rfl⟩, -, hfree⟩ := exists_of_mem_functions h
    exact ⟨n.start, (inside_of_mem_names finds_functionHead hn).standsAt rfl, hfree⟩
  | constant h =>
    obtain ⟨n, hn, rfl, -, hfree⟩ := exists_of_mem_constants h
    refine ⟨n.start, ?_, hfree⟩
    rcases hn with hn | hn
    · exact (inside_of_mem_names finds_definedConstant hn).standsAt rfl
    · exact (inside_of_mem_names finds_declaredConstant hn).standsAt rfl
  | method => exact absurd hkind (by decide)
  | event => exact absurd hkind (by decide)

/-- The body behind the name of a class is one that functions and constants are kept out of. -/
theorem Defined.exists_bodiesBehind (h : Defined s path .type symbol) :
    ∃ o, symbol.StandsAt s o ∧ s.bodiesBehind symbol.name o ⊆ classBodies s := by
  cases h with
  | @type n hn =>
    have hinside := inside_of_mem_classes hn
    refine ⟨n.start, hinside.standsAt rfl, fun span hspan => List.mem_flatMap.mpr ⟨n, hn, ?_⟩⟩
    have hname : (classSymbol s path n).name.toList = n.text := String.toList_ofList
    rwa [SourceText.bodiesBehind, hname, ← hinside.stop_eq] at hspan

theorem classBodiesClear_definitions (s : SourceText) (path : String) :
    ClassBodiesClear s (definitions s path).symbols := by
  intro c hc hclass d hd hkind
  obtain ⟨o, hstands, hsubset⟩ := (defined_of_mem_definitions hc hclass).exists_bodiesBehind
  obtain ⟨o', hstands', hfree⟩ := (defined_of_mem_definitions hd rfl).exists_outside hkind
  exact ⟨o, o', hstands, hstands', fun body hbody => hfree body (hsubset hbody)⟩

theorem functionsApart_functions (s : SourceText) (path : String) (bodies : List Span) :
    FunctionsApart (functions s path bodies) := by
  refine functionsApart_outermost fun g hg => ?_
  obtain ⟨n, hn, rfl⟩ := List.mem_map.mp hg
  have hinside := inside_of_mem_names finds_functionHead (List.mem_filter.mp hn).1
  exact ⟨hinside.boundary, onBoundary_declarationEnd hinside.boundary_stop⟩

theorem functionsApart_definitions (s : SourceText) (path : String) :
    FunctionsApart (definitions s path).symbols := by
  intro f hf hkind g hg hkind'
  cases defined_of_mem_definitions hf hkind with
  | function hf =>
    cases defined_of_mem_definitions hg hkind' with
    | function hg => exact functionsApart_functions s path (classBodies s) f hf hkind g hg hkind'

end Php

namespace JavaScript

variable {symbol : Symbol}

theorem memberOf_of_mem_methods {owner : FoundName} {start stop : Nat}
    (hbody : s.bodyFrom owner.stop 0 = .closed start stop)
    (h : symbol ∈ methods s path owner start stop) : symbol.MemberOf s owner start stop := by
  obtain ⟨n, last, rfl, -, hfound⟩ := exists_of_mem_methods h
  have hopened := onBoundary_of_opened hbody
  have hinside : n.Inside s (start + 1) stop := by
    rcases hfound with hn | hn
    · exact inside_of_mem_namesIn finds_methodHead hopened hn
    · exact inside_of_mem_namesIn finds_arrowField hopened hn
  exact ⟨rfl, n.start, hinside.standsAt rfl, hinside.start_le, hinside.lt_stop⟩

theorem methodsInClasses_definitions (s : SourceText) (path : String) :
    MethodsInClasses (definitions s path).symbols := by
  intro m hm hkind
  simp only [definitions, inReadingOrder, List.mem_mergeSort, List.mem_append] at hm ⊢
  rcases hm with (hm | hm) | hm
  · obtain ⟨n, hn, rfl | ⟨start, stop, hbody, h⟩⟩ := mem_readClasses_iff.mp hm
    · cases hkind
    · exact ⟨classSymbol s path n, Or.inl (Or.inl (mem_readClasses_iff.mpr ⟨n, hn, Or.inl rfl⟩)), rfl,
        (memberOf_of_mem_methods hbody h).encloses finds_classHead hn hbody⟩
  · rw [(mem_functions hm).1] at hkind
    cases hkind
  · obtain ⟨n, -, hevent, -⟩ := mem_readEvents hm
    rw [hevent] at hkind
    cases hkind

end JavaScript

/-- In PHP and JavaScript a method stands within the range of the class it names. In PHP no class, no
function and no constant stands in the body of a class, and no function within another. -/
theorem Language.containment_definitions (content path : String) :
    MethodsInClasses (Language.php.definitions content path).symbols ∧
      MethodsInClasses (Language.javascript.definitions content path).symbols ∧
      ClassBodiesClear (Language.php.source content)
        (Language.php.definitions content path).symbols ∧
      FunctionsApart (Language.php.definitions content path).symbols :=
  ⟨Php.methodsInClasses_definitions _ path, JavaScript.methodsInClasses_definitions _ path,
    Php.classBodiesClear_definitions _ path, Php.functionsApart_definitions _ path⟩

/-- A body that does not close takes the rest of the file. -/
example : (Language.php.definitions
    "class A \x7b\n  function f() \x7b\x7d\nfunction g() \x7b\x7d\n" "a.php").symbols.map (·.name) =
      ["A"] := by
  decide +kernel

end Concordance
