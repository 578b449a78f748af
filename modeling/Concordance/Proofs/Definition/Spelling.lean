import Concordance.Proofs.Definition.Commented

/-!
Definitions and the stretches of text that they are read from.

Main statement: `definitions_anchored`. A definition stands where its name is written; the name of a
selector is what is written there with the white space collapsed.
-/

namespace Concordance

open Text Pattern

variable {s : SourceText} {path : String} {symbol : Symbol}

section Levels

/-- The stretch of text stands at the place of the symbol. -/
def Symbol.ReadsAt (symbol : Symbol) (s : SourceText) (stretch : List Char) : Prop :=
  ∃ pre post, s.chars = pre ++ stretch ++ post ∧ symbol.position = s.positionAt (byteLength pre)

/-- A definition without uses, read from the file at the path and from the text at its place: its name
is what is written there, for a selector with the white space collapsed. Its extent starts there and
ends there or later. -/
structure Symbol.Anchored (symbol : Symbol) (s : SourceText) (path : String) : Prop where
  filePath : symbol.filePath = path
  usages : symbol.usages = []
  name : symbol.name.toList ≠ []
  start : symbol.range.start = symbol.position
  stop : symbol.position.upTo symbol.range.stop = true
  written : symbol.kind ≠ .selector → symbol.ReadsAt s symbol.name.toList
  collapsed : symbol.kind = .selector → ∃ stretch, symbol.ReadsAt s stretch ∧
    trimStart stretch = stretch ∧ symbol.name.toList = collapseBlanks stretch

/-- The symbol is what the file at the path defines by the name that was found in it. -/
structure Symbol.Defines (symbol : Symbol) (s : SourceText) (path : String) (n : FoundName) : Prop
    extends symbol.Records s n where
  filePath : symbol.filePath = path
  usages : symbol.usages = []
  range : ∃ stop, symbol.range = s.range n.start stop
  kind : symbol.kind ≠ .selector

theorem defines_symbolAt (s : SourceText) (path : String) {kind : SymbolKind} (h : kind ≠ .selector)
    (n : FoundName) (stop : Nat) : (s.symbolAt path kind n.text n.start stop).Defines s path n :=
  ⟨records_symbolAt s path kind n stop, rfl, rfl, ⟨stop, rfl⟩, h⟩

/-- An extent that is measured from a place between two characters does not end before it. -/
theorem upTo_range_stop {start stop : Nat} (hstart : onBoundary start s.chars = true) :
    (s.positionAt start).upTo (s.range start stop).stop = true :=
  upTo_positionAt hstart (Nat.le_max_right stop start)

variable {p body : Pattern} {front back : List Pattern} {f : Char → Bool} {n : FoundName}
  {lead rest : List Char} {start stop : Nat}

/-- What a name found in the text behind `lead` defines is anchored where the name stands. -/
theorem Symbol.Defines.anchored (h : symbol.Defines s path n) (hp : p.Finds front body back f)
    (hchars : s.chars = lead ++ rest) (hstart : byteLength lead = start)
    (hn : n ∈ s.namesIn p start stop) : symbol.Anchored s path := by
  obtain ⟨c, e, g, d, pre, post, -, hg, -, hreads, hall, hpre, -⟩ := exists_found hp hchars hstart hn
  obtain ⟨extent, hrange⟩ := h.range
  have hposition : symbol.position = s.positionAt (byteLength pre) := by rw [h.position, hpre]
  rw [← hpre] at hrange
  exact {
    filePath := h.filePath
    usages := h.usages
    name := h.name ▸ hp.advances.ne_nil hg hreads
    start := by rw [hrange, hposition, SourceText.range]
    stop := by
      rw [hrange, hposition]
      rw [List.append_assoc] at hall
      exact upTo_range_stop (onBoundary_iff.mpr ⟨pre, _, hall, rfl⟩)
    written := fun _ => ⟨pre, g.rest ++ post, h.name ▸ hall, hposition⟩
    collapsed := fun hkind => absurd hkind h.kind }

theorem Symbol.Defines.anchored_of_mem_names (h : symbol.Defines s path n)
    (hp : p.Finds front body back f) (hn : n ∈ s.names p) : symbol.Anchored s path :=
  h.anchored hp (List.nil_append s.chars).symm rfl hn

theorem anchored_of_mem_readClasses (hp : p.Finds front body back f) {nested : Bool}
    {members : FoundName → Nat → Nat → List Symbol} {bodies : List Span}
    (hmembers : ∀ m start stop, s.bodyFrom m.stop 0 = .closed start stop →
      ∀ d ∈ members m start stop, d.Anchored s path)
    (h : symbol ∈ (readClasses s path nested members bodies (s.names p)).symbols) :
    symbol.Anchored s path := by
  rcases exists_of_mem_readClasses h with ⟨m, hm, stop, rfl⟩ | ⟨m, -, start, stop, hbody, hmember⟩
  · exact (defines_symbolAt s path (by decide) m stop).anchored_of_mem_names hp hm
  · exact hmembers m start stop hbody symbol hmember

theorem anchored_of_mem_readEvents (hp : p.Finds front body back f)
    (h : symbol ∈ readEvents s path (s.names p)) : symbol.Anchored s path := by
  obtain ⟨n, hn, -, rfl⟩ := exists_of_mem_readEvents h
  have hdefines : Symbol.Defines (Symbol.define (String.ofList n.text) .event path
      (s.positionAt n.start) (s.range n.start n.stop)) s path n :=
    ⟨⟨String.toList_ofList, rfl⟩, rfl, rfl, ⟨n.stop, rfl⟩, by simp [Symbol.define]⟩
  exact hdefines.anchored_of_mem_names hp hn

end Levels

namespace Php

theorem anchored_of_mem_methods {owner : FoundName} {offset start stop : Nat}
    (hbody : s.bodyFrom offset 0 = .closed start stop) (h : symbol ∈ methods s path owner start stop) :
    symbol.Anchored s path := by
  obtain ⟨n, last, rfl, -, hn⟩ := exists_of_mem_methods h
  obtain ⟨pre, rest, hchars, hstart⟩ := exists_bodyFrom hbody
  refine Symbol.Defines.anchored ?_ finds_methodHead hchars hstart hn
  exact ⟨⟨String.toList_ofList, rfl⟩, rfl, rfl, ⟨_, rfl⟩, by simp [SourceText.symbolAt, Symbol.define]⟩

theorem anchored_of_mem_definitions (h : symbol ∈ (definitions s path).symbols) :
    symbol.Anchored s path := by
  rcases List.mem_append.mp (List.mem_mergeSort.mp h) with h | h
  · rcases List.mem_append.mp h with h | h
    · rcases List.mem_append.mp h with h | h
      · exact anchored_of_mem_readClasses finds_classHead
          (fun m start stop hbody d hd => anchored_of_mem_methods hbody hd) h
      · obtain ⟨n, hn, ⟨stop, rfl⟩, -⟩ := exists_of_mem_functions h
        exact (defines_symbolAt s path (by decide) n stop).anchored_of_mem_names finds_functionHead hn
    · obtain ⟨n, hn, rfl, -⟩ := exists_of_mem_constants h
      have hdefines := defines_symbolAt s path (show SymbolKind.variable ≠ .selector by decide) n n.stop
      rcases hn with hn | hn
      · exact hdefines.anchored_of_mem_names finds_definedConstant hn
      · exact hdefines.anchored_of_mem_names finds_declaredConstant hn
  · exact anchored_of_mem_readEvents finds_firedHook h

end Php

namespace JavaScript

theorem anchored_of_mem_methods {owner : FoundName} {offset start stop : Nat}
    (hbody : s.bodyFrom offset 0 = .closed start stop) (h : symbol ∈ methods s path owner start stop) :
    symbol.Anchored s path := by
  obtain ⟨n, last, rfl, -, hfound⟩ := exists_of_mem_methods h
  obtain ⟨pre, rest, hchars, hstart⟩ := exists_bodyFrom hbody
  have hdefines : Symbol.Defines { s.symbolAt path .method n.text n.start last with
      container := some (String.ofList owner.text) } s path n :=
    ⟨⟨String.toList_ofList, rfl⟩, rfl, rfl, ⟨_, rfl⟩, by simp [SourceText.symbolAt, Symbol.define]⟩
  rcases hfound with hfound | hfound
  · exact hdefines.anchored finds_methodHead hchars hstart hfound
  · exact hdefines.anchored finds_arrowField hchars hstart hfound

theorem anchored_of_mem_definitions (h : symbol ∈ (definitions s path).symbols) :
    symbol.Anchored s path := by
  rcases List.mem_append.mp (List.mem_mergeSort.mp h) with h | h
  · rcases List.mem_append.mp h with h | h
    · exact anchored_of_mem_readClasses finds_classHead
        (fun m start stop hbody d hd => anchored_of_mem_methods hbody hd) h
    · obtain ⟨n, stop, rfl, -, hn⟩ := exists_of_mem_functions h
      have hdefines := defines_symbolAt s path (show SymbolKind.function ≠ .selector by decide) n stop
      rcases hn with hn | hn
      · exact hdefines.anchored_of_mem_names finds_functionHead hn
      · exact hdefines.anchored_of_mem_names finds_assignedFunction hn
  · exact anchored_of_mem_readEvents finds_firedEvent h

end JavaScript

namespace Stylesheet

theorem anchored_of_mem_selectorsFrom
    (h : symbol ∈ (selectorsFrom s path 0 0 [] (s.codeFrom 0)).symbols) :
    symbol.Anchored s path := by
  obtain ⟨start, stop, close, -, hhead, hopen, h⟩ := exists_head_of_mem_selectorsFrom h
  obtain ⟨front, blanks, part, post, hsite⟩ := exists_site_of_mem_selectorsOf hhead hopen h
  have hsymbol := hsite.recorded
  have hcut : s.chars = (front ++ blanks) ++ part ++ post := by rw [hsite.chars]; simp
  have hboundary : onBoundary (byteLength (front ++ blanks)) s.chars = true :=
    onBoundary_iff.mpr ⟨front ++ blanks, part ++ post, by rw [hcut, List.append_assoc], rfl⟩
  have hposition : symbol.position = s.positionAt (byteLength (front ++ blanks)) :=
    congrArg Symbol.position hsymbol
  have hrange : symbol.range = s.range (byteLength (front ++ blanks)) (close + 1) :=
    congrArg Symbol.range hsymbol
  exact {
    filePath := congrArg Symbol.filePath hsymbol
    usages := congrArg Symbol.usages hsymbol
    name := hsite.named
    start := by rw [hrange, hposition, SourceText.range]
    stop := by
      rw [hrange, hposition]
      exact upTo_range_stop hboundary
    written := fun hkind => absurd (congrArg Symbol.kind hsymbol) hkind
    collapsed := fun _ => ⟨part, ⟨front ++ blanks, post, hcut, hposition⟩, hsite.selector.trimmed,
      hsite.selector.name.symm⟩ }

theorem anchored_of_mem_definitions (h : symbol ∈ (definitions s path).symbols) :
    symbol.Anchored s path := by
  rcases List.mem_append.mp (mem_of_mem_firstPerKey _ (List.mem_mergeSort.mp h)) with h | h
  · exact anchored_of_mem_selectorsFrom h
  · obtain ⟨n, rfl, -, hn⟩ := exists_of_mem_propertiesAndVariables h
    have hdefines := defines_symbolAt s path (show SymbolKind.variable ≠ .selector by decide) n n.stop
    rcases hn with hn | hn
    · exact hdefines.anchored_of_mem_names finds_customProperty hn
    · exact hdefines.anchored_of_mem_names finds_scriptVariable hn

end Stylesheet

theorem pairwise_position_inReadingOrder (symbols : List Symbol) :
    (inReadingOrder symbols).Pairwise fun a b => a.position.upTo b.position = true := by
  apply List.pairwise_mergeSort
  · intro a b c
    exact Position.upTo_trans
  · intro a b
    exact Bool.or_eq_true_iff.mpr (Position.upTo_total a.position b.position)

/-- The definitions of a file are in the order of their places, and each is anchored in the text. -/
theorem definitions_anchored (language : Language) (content path : String) :
    (language.definitions content path).symbols.Pairwise
        (fun a b => a.position.upTo b.position = true) ∧
      ∀ symbol ∈ (language.definitions content path).symbols,
        symbol.Anchored (language.source content) path := by
  cases language with
  | php =>
    exact ⟨pairwise_position_inReadingOrder _, fun _ h => Php.anchored_of_mem_definitions h⟩
  | javascript =>
    exact ⟨pairwise_position_inReadingOrder _, fun _ h => JavaScript.anchored_of_mem_definitions h⟩
  | css =>
    exact ⟨pairwise_position_inReadingOrder _,
      fun _ h => Stylesheet.anchored_of_mem_definitions h⟩

/-- A selector on two lines, behind a character of two bytes. -/
def accentedSelector : Symbol :=
  (Language.css.source "é, .a\n .b {}").symbolAt "a.css" .selector ".a .b".toList 4 13

theorem accentedSelector_mem :
    accentedSelector ∈ (Language.css.definitions "é, .a\n .b {}" "a.css").symbols :=
  List.mem_mergeSort.mpr (by decide +kernel)

theorem definitions_anchored_accented :
    accentedSelector ∈ (Language.css.definitions "é, .a\n .b {}" "a.css").symbols ∧
      accentedSelector.position = ⟨0, 3⟩ ∧
      accentedSelector.Anchored (Language.css.source "é, .a\n .b {}") "a.css" :=
  ⟨accentedSelector_mem, by decide,
    (definitions_anchored .css "é, .a\n .b {}" "a.css").2 accentedSelector accentedSelector_mem⟩

end Concordance
