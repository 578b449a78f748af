import Concordance.Proofs.Definition.Classes
import Concordance.Proofs.Definition.Heads
import Concordance.Proofs.Definition.Selectors

/-!
How the definitions of a file stand on the lines where they were recorded.

Main statements: `JavaScript.mem_definitions`, `Php.mem_definitions` and `Stylesheet.mem_definitions`,
which say for each kind of definition of the language how much of it stands on its line.
-/

namespace Concordance

open Text Pattern

variable {s : SourceText} {path : String} {symbol : Symbol}

section Levels

/-- The line where the symbol was recorded. -/
def SourceText.recordedLine (s : SourceText) (symbol : Symbol) : List Char :=
  (linesWithEnds s.chars)[symbol.position.line]?.getD []

/-- The symbol has a name, and the text has the line where it was recorded. -/
structure Symbol.Placed (symbol : Symbol) (s : SourceText) : Prop where
  name : symbol.name.toList ≠ []
  line : symbol.position.line < (linesWithEnds s.chars).length

/-- The name stands on the line where the symbol was recorded. -/
structure Symbol.Held (symbol : Symbol) (s : SourceText) : Prop extends symbol.Placed s where
  held : symbol.name.toList <:+: s.recordedLine symbol

/-- The name stands there with no character of an identifier next to it. -/
structure Symbol.Alone (symbol : Symbol) (s : SourceText) : Prop extends symbol.Placed s where
  alone : StandsAlone symbol.name.toList (s.recordedLine symbol)

/-- The symbol is recorded between the two parts of the text. -/
structure Symbol.Between (symbol : Symbol) (s : SourceText) (front back : List Char) : Prop where
  chars : s.chars = front ++ back
  position : symbol.position = s.positionAt (byteLength front)

/-- The name stands where the symbol was recorded, on one line with a quote before it and a quote behind
it. -/
structure Symbol.Quoted (symbol : Symbol) (s : SourceText) : Prop extends symbol.Placed s where
  oneLine : '\n' ∉ symbol.name.toList
  quoted : ∃ front q q' back, isQuote q = true ∧ isQuote q' = true ∧
    symbol.Between s (front ++ [q]) (symbol.name.toList ++ q' :: back)

/-- The name stands on a line where the symbol was recorded, and but for white space a colon follows. -/
structure Symbol.Assigned (symbol : Symbol) (s : SourceText) : Prop extends symbol.Placed s where
  oneLine : '\n' ∉ symbol.name.toList
  assigned : ∃ front blanks back, AllBlank blanks ∧
    symbol.Between s front (symbol.name.toList ++ (blanks ++ ':' :: back))

/-- A selector that is the name stands where the symbol was recorded, with a comma outside brackets or
the brace of a rule behind it. -/
structure Symbol.Selects (symbol : Symbol) (s : SourceText) : Prop extends symbol.Placed s where
  selects : ∃ front part post, SelectorBefore symbol.name.toList part post ∧
    symbol.Between s front (part ++ post)

section Between

variable {front mid back : List Char}

theorem Symbol.Between.position_eq (h : symbol.Between s front back) :
    symbol.position = ⟨front.count '\n', (lastLine front).length⟩ := by
  rw [h.position, positionAt_of_onBoundary (h.chars ▸ onBoundary_byteLength front back), h.chars,
    takeBytes_byteLength]

/-- From the recorded line on the text holds what stands before the symbol there, and all behind. -/
theorem Symbol.Between.flatten_drop (h : symbol.Between s front back) :
    ((linesWithEnds s.chars).drop symbol.position.line).flatten = lastLine front ++ back := by
  rw [h.position_eq, h.chars]
  exact flatten_drop_count_newlines front back

/-- What stands at the symbol up to a line feed is part of the recorded line. -/
theorem Symbol.Between.exists_recordedLine (h : symbol.Between s front (mid ++ back))
    (hne : mid ≠ []) (hmid : '\n' ∉ mid) :
    ∃ after, after <+: back ∧ s.recordedLine symbol = lastLine front ++ mid ++ after := by
  obtain ⟨after, hafter, hline⟩ := exists_line_of_notMem front back hne hmid
  refine ⟨after, hafter, ?_⟩
  rw [SourceText.recordedLine, h.position_eq, h.chars, ← List.append_assoc, hline, Option.getD_some]

end Between

/-- The symbol is recorded where the name was found. -/
structure Symbol.Records (symbol : Symbol) (s : SourceText) (n : FoundName) : Prop where
  name : symbol.name.toList = n.text
  position : symbol.position = s.positionAt n.start

variable {p body : Pattern} {front back : List Pattern} {f : Char → Bool} {n : FoundName}

theorem records_symbolAt (s : SourceText) (path : String) (kind : SymbolKind) (n : FoundName)
    (stop : Nat) :
    (s.symbolAt path kind n.text n.start stop).Records s n :=
  ⟨toList_name_symbolAt .., rfl⟩

theorem Symbol.Records.between {pre post : List Char} (h : symbol.Records s n)
    (hstands : n.StandsIn s pre post) : symbol.Between s pre (symbol.name.toList ++ post) :=
  ⟨by rw [hstands.chars, h.name, List.append_assoc], by rw [h.position, hstands.start]⟩

theorem Symbol.Records.placed (h : symbol.Records s n) (hp : p.Finds front body back f)
    (hn : n ∈ s.names p) : symbol.Placed s := by
  obtain ⟨⟨pre, post, hstands⟩, -⟩ := exists_standsIn hp hn
  exact ⟨h.name ▸ hstands.nonempty, h.position ▸ hstands.line_lt⟩

theorem Symbol.Records.held (h : symbol.Records s n) (hp : p.Finds front body back f)
    (hf : f '\n' = false) (hn : n ∈ s.names p) : symbol.Held s := by
  obtain ⟨⟨pre, post, hstands⟩, hchars⟩ := exists_standsIn hp hn
  have hplaced := h.placed hp hn
  have hline : '\n' ∉ symbol.name.toList := fun hmem => by simp [hchars _ (h.name ▸ hmem)] at hf
  obtain ⟨after, -, hget⟩ := (h.between hstands).exists_recordedLine hplaced.name hline
  exact ⟨hplaced, lastLine pre, after, hget.symm⟩

/-- A name found behind `lead` by a pattern that lets no character of an identifier stand next to
it. -/
theorem Symbol.Records.alone {lead rest : List Char} {start stop : Nat} (h : symbol.Records s n)
    (hp : p.Finds front body back f) (hf : f '\n' = false) (hbefore : (all front).EndsIn IdentEdge)
    (hafter : (all back).StartsIn NoIdentChar) (hchars : s.chars = lead ++ rest)
    (hstart : byteLength lead = start) (hlead : IdentEdge lead.getLast?)
    (hn : n ∈ s.namesIn p start stop) : symbol.Alone s := by
  obtain ⟨⟨pre, post, hstands, hleft, hright⟩, hclass⟩ :=
    exists_standsIn_alone hp hbefore hafter hchars hstart hlead hn
  have hline : '\n' ∉ symbol.name.toList := fun hmem => by simp [hclass _ (h.name ▸ hmem)] at hf
  have hname : symbol.name.toList ≠ [] := h.name ▸ hstands.nonempty
  obtain ⟨after, hafter, hget⟩ := (h.between hstands).exists_recordedLine hname hline
  exact ⟨⟨hname, h.position ▸ hstands.line_lt⟩, lastLine pre, after, hget,
    edge_getLast?_of_suffix (List.rtakeWhile_suffix _ pre) hleft, edge_head?_of_prefix hafter hright⟩

/-- A name found between quotes. -/
theorem Symbol.Records.quoted (h : symbol.Records s n) (hp : p.Finds front body back f)
    (hf : f '\n' = false) (hbefore : (all front).EndsIn QuoteMark)
    (hafter : (all back).StartsIn QuoteMark) (hn : n ∈ s.names p) : symbol.Quoted s := by
  have hnone : ¬ QuoteMark none := by
    rintro ⟨q, hq, -⟩
    cases hq
  obtain ⟨⟨pre, post, hstands, ⟨q, hpre, hq⟩, q', hpost, hq'⟩, hclass⟩ :=
    exists_standsIn_between hp hbefore (fun h => absurd h hnone) hafter hnone
      (List.nil_append s.chars).symm rfl hn
  obtain ⟨pre, rfl⟩ := List.getLast?_eq_some_iff.mp hpre
  obtain ⟨post, rfl⟩ := List.head?_eq_some_iff.mp hpost
  refine ⟨h.placed hp hn, fun hmem => ?_, pre, q, q', post, hq, hq', ?_, ?_⟩
  · simp [hclass _ (h.name ▸ hmem)] at hf
  · rw [hstands.chars, h.name, List.append_assoc]
  · rw [h.position, hstands.start]

/-- A name found in front of a colon. -/
theorem Symbol.Records.assigned (h : symbol.Records s n)
    (hp : p.Finds front body [blanks, literal ":"] f) (hf : f '\n' = false) (hn : n ∈ s.names p) :
    symbol.Assigned s := by
  obtain ⟨c, e, g, d, pre, post, -, hg, hd, hreads, hall, hpre, -⟩ :=
    exists_found hp (List.nil_append s.chars).symm rfl hn
  obtain ⟨c₁, hblanks, hd⟩ := mem_ends_seq.mp hd
  obtain ⟨c₂, hcolon, -⟩ := mem_ends_seq.mp hd
  obtain ⟨blank, hblank⟩ := exists_reads_of_mem_ends hblanks
  have hrest : g.rest = blank ++ ':' :: c₂.rest := by
    have hread := (hblank.trans (reads_literal hcolon)).rest
    rwa [List.append_assoc] at hread
  refine ⟨h.placed hp hn, fun hmem => ?_, pre, blank, c₂.rest ++ post,
    readsOnly_run (fun _ h => h) hblanks blank hblank, ?_, by rw [h.position, hpre]⟩
  · simp [hp.readsOnly hg _ hreads _ (h.name ▸ hmem)] at hf
  · rw [hall, hrest, h.name]
    simp

end Levels

section Shared

/-- A definition that is read with the classes is one of the classes or a member of one. -/
theorem exists_of_mem_readClasses {nested : Bool} {members : FoundName → Nat → Nat → List Symbol}
    {bodies : List Span} {names : List FoundName}
    (h : symbol ∈ (readClasses s path nested members bodies names).symbols) :
    (∃ n ∈ names, ∃ stop, symbol = s.symbolAt path .type n.text n.start stop) ∨
      ∃ n ∈ names, ∃ start stop, s.bodyFrom n.stop 0 = .closed start stop ∧
        symbol ∈ members n start stop := by
  obtain ⟨n, hkept, h⟩ := mem_readClasses_iff.mp h
  have hn := (keptClasses_sublist s nested bodies names).subset hkept
  rcases h with hclass | hmember
  · exact Or.inl ⟨n, hn, _, hclass⟩
  · exact Or.inr ⟨n, hn, hmember⟩

theorem mem_readClasses {nested : Bool} {members : FoundName → Nat → Nat → List Symbol}
    {bodies : List Span} {names : List FoundName}
    (h : symbol ∈ (readClasses s path nested members bodies names).symbols) :
    (∃ n ∈ names, symbol.kind = .type ∧ symbol.Records s n) ∨
      ∃ n ∈ names, ∃ start stop, s.bodyFrom n.stop 0 = .closed start stop ∧
        symbol ∈ members n start stop := by
  refine (exists_of_mem_readClasses h).imp_left ?_
  rintro ⟨n, hn, stop, rfl⟩
  exact ⟨n, hn, rfl, records_symbolAt s path .type n stop⟩

theorem mem_of_mem_outermost {α : Type} {offset : α → Nat} {t : DepthTracker} {xs : List α} {a : α}
    (h : a ∈ t.outermost offset xs) : a ∈ xs := by
  induction xs generalizing t with
  | nil => simp [DepthTracker.outermost] at h
  | cons b xs ih =>
    simp only [DepthTracker.outermost] at h
    split at h
    · rcases List.mem_cons.mp h with rfl | h
      · exact List.mem_cons_self
      · exact List.mem_cons_of_mem b (ih h)
    · exact List.mem_cons_of_mem b (ih h)

/-- An event is recorded where its name was found, outside comments. -/
theorem exists_of_mem_readEvents {names : List FoundName} (h : symbol ∈ readEvents s path names) :
    ∃ n ∈ names, s.inComment n.start = false ∧ symbol =
      Symbol.define (String.ofList n.text) .event path (s.positionAt n.start)
        (s.range n.start n.stop) := by
  obtain ⟨n, hn, rfl⟩ := List.mem_map.mp h
  obtain ⟨hn, hcode⟩ := List.mem_filter.mp (mem_of_mem_firstPerKey _ hn)
  exact ⟨n, hn, by simpa using hcode, rfl⟩

theorem mem_readEvents {names : List FoundName} (h : symbol ∈ readEvents s path names) :
    ∃ n ∈ names, symbol.kind = .event ∧ symbol.Records s n := by
  obtain ⟨n, hn, -, rfl⟩ := exists_of_mem_readEvents h
  exact ⟨n, hn, rfl, String.toList_ofList, rfl⟩

theorem mem_of_mem_outermostFunctions {found : List FoundFunction} {g : FoundFunction}
    (h : g ∈ outermostFunctions found) : g ∈ found :=
  (List.mem_filter.mp h).1

end Shared

namespace JavaScript

theorem mem_foundMethods {start stop : Nat} {g : FoundFunction}
    (h : g ∈ foundMethods s start stop) :
    g.name ∈ s.namesIn methodHead (start + 1) stop ∨
      g.name ∈ s.namesIn arrowField (start + 1) stop := by
  rcases List.mem_append.mp (List.mem_mergeSort.mp h) with h | h
  · obtain ⟨n, hn, hfound⟩ := List.mem_filterMap.mp h
    split at hfound
    · cases hfound
    · split at hfound
      · cases hfound
      · obtain rfl := Option.some.inj hfound
        exact Or.inl hn
  · obtain ⟨n, hn, rfl⟩ := List.mem_map.mp h
    exact Or.inr hn

/-- A method is recorded where its name was found in the body of its class, outside comments. -/
theorem exists_of_mem_methods {owner : FoundName} {start stop : Nat}
    (h : symbol ∈ methods s path owner start stop) :
    ∃ n last, symbol = { s.symbolAt path .method n.text n.start last with
        container := some (String.ofList owner.text) } ∧ s.inComment n.start = false ∧
      (n ∈ s.namesIn methodHead (start + 1) stop ∨ n ∈ s.namesIn arrowField (start + 1) stop) := by
  obtain ⟨g, hg, rfl⟩ := List.mem_map.mp h
  obtain ⟨hg, hcode⟩ := List.mem_filter.mp hg
  exact ⟨g.name, g.stop, rfl, by simpa using hcode, mem_foundMethods (mem_of_mem_outermost hg)⟩

/-- A function is recorded where its name was found, outside comments. -/
theorem exists_of_mem_functions {bodies : List Span} (h : symbol ∈ functions s path bodies) :
    ∃ n stop, symbol = s.symbolAt path .function n.text n.start stop ∧ s.inComment n.start = false ∧
      (n ∈ s.names functionHead ∨ n ∈ s.names assignedFunction) := by
  obtain ⟨g, hg, rfl⟩ := List.mem_map.mp h
  rcases List.mem_append.mp (mem_of_mem_outermostFunctions hg) with hg | hg
  · obtain ⟨n, hn, rfl⟩ := List.mem_map.mp hg
    obtain ⟨hn, hfree⟩ := List.mem_filter.mp hn
    exact ⟨n, _, rfl, by simpa using (Bool.and_eq_true_iff.mp hfree).2, Or.inl hn⟩
  · obtain ⟨n, hn, rfl⟩ := List.mem_map.mp hg
    obtain ⟨hn, hcode⟩ := List.mem_filter.mp hn
    exact ⟨n, _, rfl, by simpa using hcode, Or.inr (mem_of_mem_outermost hn)⟩

theorem mem_methods {owner : FoundName} {offset start stop : Nat}
    (hbody : s.bodyFrom offset 0 = .closed start stop) (h : symbol ∈ methods s path owner start stop) :
    symbol.kind = .method ∧ symbol.Alone s := by
  obtain ⟨n, last, rfl, -, hfound⟩ := exists_of_mem_methods h
  obtain ⟨pre, rest, hchars, hstart⟩ := exists_bodyFrom hbody
  have hlead : IdentEdge (pre ++ ['{']).getLast? := by
    rw [List.getLast?_append]
    exact identEdge_some (by decide)
  have hrecords := records_symbolAt s path .method n last
  refine ⟨rfl, ?_⟩
  rcases hfound with hfound | hfound
  · exact Symbol.Records.alone ⟨hrecords.name, hrecords.position⟩ finds_methodHead (by decide)
      methodHead_before methodHead_after hchars hstart hlead hfound
  · exact Symbol.Records.alone ⟨hrecords.name, hrecords.position⟩ finds_arrowField (by decide)
      arrowField_before arrowField_after hchars hstart hlead hfound

theorem mem_functions {bodies : List Span} (h : symbol ∈ functions s path bodies) :
    symbol.kind = .function ∧ symbol.Held s := by
  obtain ⟨n, stop, rfl, -, hn⟩ := exists_of_mem_functions h
  have hrecords := records_symbolAt s path .function n stop
  refine ⟨rfl, ?_⟩
  rcases hn with hn | hn
  · exact hrecords.held finds_functionHead (by decide) hn
  · exact hrecords.held finds_assignedFunction (by decide) hn

/-- Methods stand alone on their lines, classes and functions stand there, and events are quoted. -/
theorem mem_definitions (h : symbol ∈ (definitions s path).symbols) :
    ((symbol.kind = .type ∨ symbol.kind = .function) ∧ symbol.Held s) ∨
      (symbol.kind = .method ∧ symbol.Alone s) ∨ (symbol.kind = .event ∧ symbol.Quoted s) := by
  rcases List.mem_append.mp (List.mem_mergeSort.mp h) with h | h
  · rcases List.mem_append.mp h with h | h
    · rcases mem_readClasses h with ⟨n, hn, hkind, hrecords⟩ | ⟨n, -, start, stop, hbody, hmember⟩
      · exact Or.inl ⟨Or.inl hkind, hrecords.held finds_classHead (by decide) hn⟩
      · exact Or.inr (Or.inl (mem_methods hbody hmember))
    · obtain ⟨hkind, hheld⟩ := mem_functions h
      exact Or.inl ⟨Or.inr hkind, hheld⟩
  · obtain ⟨n, hn, hkind, hrecords⟩ := mem_readEvents h
    exact Or.inr (Or.inr ⟨hkind, hrecords.quoted finds_firedEvent (by decide) firedEvent_before
      firedEvent_after hn⟩)

end JavaScript

namespace Php

/-- A method is recorded where its name was found in the body of its class, outside comments. -/
theorem exists_of_mem_methods {owner : FoundName} {start stop : Nat}
    (h : symbol ∈ methods s path owner start stop) :
    ∃ n last, symbol = { s.symbolAt path .method n.text n.start last with
        container := some (String.ofList owner.text) } ∧ s.inComment n.start = false ∧
      n ∈ s.namesIn methodHead (start + 1) stop := by
  obtain ⟨n, hn, rfl⟩ := List.mem_map.mp h
  obtain ⟨hn, hcode⟩ := List.mem_filter.mp hn
  exact ⟨n, _, rfl, by simpa using hcode, mem_of_mem_outermost hn⟩

/-- A function is recorded where its name was found, outside comments and the bodies of classes. -/
theorem exists_of_mem_functions {bodies : List Span} (h : symbol ∈ functions s path bodies) :
    ∃ n ∈ s.names functionHead, (∃ stop, symbol = s.symbolAt path .function n.text n.start stop) ∧
      s.inComment n.start = false ∧ ∀ span ∈ bodies, span.strictlyCovers n.start = false := by
  obtain ⟨g, hg, rfl⟩ := List.mem_map.mp h
  obtain ⟨n, hn, rfl⟩ := List.mem_map.mp (mem_of_mem_outermostFunctions hg)
  obtain ⟨hn, hfree⟩ := List.mem_filter.mp hn
  obtain ⟨hfree, hcode⟩ := Bool.and_eq_true_iff.mp hfree
  exact ⟨n, hn, ⟨_, rfl⟩, by simpa using hcode, by simpa using hfree⟩

/-- A constant is recorded where its name was found, outside comments and the bodies of classes. -/
theorem exists_of_mem_constants {bodies : List Span} (h : symbol ∈ constants s path bodies) :
    ∃ n, (n ∈ s.names definedConstant ∨ n ∈ s.names declaredConstant) ∧
      symbol = s.symbolAt path .variable n.text n.start n.stop ∧ s.inComment n.start = false ∧
      ∀ span ∈ bodies, span.strictlyCovers n.start = false := by
  obtain ⟨n, hn, rfl⟩ := List.mem_map.mp h
  obtain ⟨hn, hfree⟩ := List.mem_filter.mp (mem_of_mem_firstPerKey _ hn)
  obtain ⟨hfree, hcode⟩ := Bool.and_eq_true_iff.mp hfree
  exact ⟨n, List.mem_append.mp hn, rfl, by simpa using hcode, by simpa using hfree⟩

theorem mem_methods {owner : FoundName} {offset start stop : Nat}
    (hbody : s.bodyFrom offset 0 = .closed start stop) (h : symbol ∈ methods s path owner start stop) :
    symbol.kind = .method ∧ symbol.Alone s := by
  obtain ⟨n, last, rfl, -, hfound⟩ := exists_of_mem_methods h
  obtain ⟨pre, rest, hchars, hstart⟩ := exists_bodyFrom hbody
  have hlead : IdentEdge (pre ++ ['{']).getLast? := by
    rw [List.getLast?_append]
    exact identEdge_some (by decide)
  refine ⟨rfl, Symbol.Records.alone ⟨String.toList_ofList, rfl⟩ finds_methodHead (by decide)
    methodHead_before functionName_after hchars hstart hlead hfound⟩

theorem mem_functions {bodies : List Span} (h : symbol ∈ functions s path bodies) :
    symbol.kind = .function ∧ symbol.Alone s := by
  obtain ⟨n, hn, ⟨stop, rfl⟩, -⟩ := exists_of_mem_functions h
  exact ⟨rfl, (records_symbolAt s path .function n stop).alone finds_functionHead (by decide)
    functionHead_before functionName_after (List.nil_append s.chars).symm rfl rfl hn⟩

theorem mem_constants {bodies : List Span} (h : symbol ∈ constants s path bodies) :
    symbol.kind = .variable ∧ symbol.Alone s ∧ ∀ a ∈ symbol.name.toList, isWordChar a = true := by
  obtain ⟨n, hn, rfl, -⟩ := exists_of_mem_constants h
  have hrecords := records_symbolAt s path .variable n n.stop
  refine ⟨rfl, ?_⟩
  rw [hrecords.name]
  rcases hn with hn | hn
  · exact ⟨hrecords.alone finds_definedConstant (by decide) definedConstant_before
      definedConstant_after (List.nil_append s.chars).symm rfl rfl hn,
      (exists_standsIn finds_definedConstant hn).2⟩
  · exact ⟨hrecords.alone finds_declaredConstant (by decide) declaredConstant_before
      declaredConstant_after (List.nil_append s.chars).symm rfl rfl hn,
      (exists_standsIn finds_declaredConstant hn).2⟩

/-- Methods, functions and constants stand alone on their lines, classes stand there, and events are
quoted. -/
theorem mem_definitions (h : symbol ∈ (definitions s path).symbols) :
    (symbol.kind = .type ∧ symbol.Held s) ∨
      ((symbol.kind = .method ∨ symbol.kind = .function) ∧ symbol.Alone s) ∨
      (symbol.kind = .variable ∧ symbol.Alone s ∧
        ∀ a ∈ symbol.name.toList, isWordChar a = true) ∨
      (symbol.kind = .event ∧ symbol.Quoted s) := by
  rcases List.mem_append.mp (List.mem_mergeSort.mp h) with h | h
  · rcases List.mem_append.mp h with h | h
    · rcases List.mem_append.mp h with h | h
      · rcases mem_readClasses h with ⟨n, hn, hkind, hrecords⟩ | ⟨n, -, start, stop, hbody, hmember⟩
        · exact Or.inl ⟨hkind, hrecords.held finds_classHead (by decide) hn⟩
        · obtain ⟨hkind, halone⟩ := mem_methods hbody hmember
          exact Or.inr (Or.inl ⟨Or.inl hkind, halone⟩)
      · obtain ⟨hkind, halone⟩ := mem_functions h
        exact Or.inr (Or.inl ⟨Or.inr hkind, halone⟩)
    · exact Or.inr (Or.inr (Or.inl (mem_constants h)))
  · obtain ⟨n, hn, hkind, hrecords⟩ := mem_readEvents h
    exact Or.inr (Or.inr (Or.inr ⟨hkind, hrecords.quoted finds_firedHook (by decide) firedHook_before
      firedHook_after hn⟩))

end Php

namespace Stylesheet

/-- Custom properties and preprocessor variables are names the source gives for one of the two
patterns, none of them in a comment. -/
theorem exists_of_mem_propertiesAndVariables (h : symbol ∈ propertiesAndVariables s path) :
    ∃ n, symbol = s.symbolAt path .variable n.text n.start n.stop ∧ s.inComment n.start = false ∧
      (n ∈ s.names customProperty ∨ n ∈ s.names scriptVariable) := by
  obtain ⟨n, hn, rfl⟩ := List.mem_map.mp h
  rcases List.mem_append.mp hn with hn | hn
  · obtain ⟨hn, hkept⟩ := List.mem_filter.mp hn
    exact ⟨n, rfl, by simpa using (Bool.and_eq_true_iff.mp hkept).1, Or.inl hn⟩
  · obtain ⟨hn, hcode⟩ := List.mem_filter.mp hn
    exact ⟨n, rfl, by simpa using hcode, Or.inr (mem_of_mem_outermost hn)⟩

theorem mem_propertiesAndVariables (h : symbol ∈ propertiesAndVariables s path) :
    symbol.kind = .variable ∧ symbol.Assigned s ∧
      (∀ a ∈ symbol.name.toList, isVariableChar a = true) ∧
      (symbol.name.toList.head? = some '-' ∨ symbol.name.toList.head? = some '$') := by
  obtain ⟨n, rfl, -, hn⟩ := exists_of_mem_propertiesAndVariables h
  have hrecords := records_symbolAt s path .variable n n.stop
  refine ⟨rfl, ?_⟩
  rw [hrecords.name]
  rcases hn with hn | hn
  · exact ⟨hrecords.assigned finds_customProperty (by decide) hn, (exists_standsIn finds_customProperty hn).2,
      Or.inl (head?_of_startsIn finds_customProperty customProperty_head hn)⟩
  · exact ⟨hrecords.assigned finds_scriptVariable (by decide) hn, (exists_standsIn finds_scriptVariable hn).2,
      Or.inr (head?_of_startsIn finds_scriptVariable scriptVariable_head hn)⟩

/-- A selector stands where it was recorded, up to a comma or to the brace. -/
theorem mem_selectorsFrom (h : symbol ∈ (selectorsFrom s path 0 0 [] (s.codeFrom 0)).symbols) :
    symbol.kind = .selector ∧ symbol.Selects s := by
  obtain ⟨start, stop, close, -, hhead, hopen, h⟩ := exists_head_of_mem_selectorsFrom h
  obtain ⟨front, blanks, part, post, hsite⟩ := exists_site_of_mem_selectorsOf hhead hopen h
  have hchars : s.chars = (front ++ blanks) ++ (part ++ post) := by
    rw [hsite.chars, List.append_assoc]
  have hposition : symbol.position = s.positionAt (byteLength (front ++ blanks)) :=
    congrArg Symbol.position hsite.recorded
  refine ⟨congrArg Symbol.kind hsite.recorded, ⟨hsite.named, ?_⟩, front ++ blanks, part, post,
    hsite.selector, hchars, hposition⟩
  rw [hposition]
  apply line_positionAt_lt
  rw [hchars, dropBytes_byteLength]
  exact List.append_ne_nil_of_left_ne_nil hsite.ne_nil post

/-- Selectors and variables stand where they were recorded, with what ends them behind. -/
theorem mem_definitions (h : symbol ∈ (definitions s path).symbols) :
    (symbol.kind = .selector ∧ symbol.Selects s) ∨
      (symbol.kind = .variable ∧ symbol.Assigned s ∧
        (∀ a ∈ symbol.name.toList, isVariableChar a = true) ∧
        (symbol.name.toList.head? = some '-' ∨ symbol.name.toList.head? = some '$')) := by
  have hmem := mem_of_mem_firstPerKey _ (List.mem_mergeSort.mp h)
  exact (List.mem_append.mp hmem).imp mem_selectorsFrom mem_propertiesAndVariables

end Stylesheet

end Concordance
