import Concordance.Proofs.Definition.Lead
import Concordance.Reading

/-!
Definitions at one site: with one name at one place of a file.

Main statement: `Language.pairwise_definitions`. Two definitions of a file are at one site only if one
of them is a method and the other is a method too, a class or a function. All others are kept apart by
their names, by the order in which one pattern finds them, or by what leads up to them.
-/

namespace Concordance

open Text Pattern

variable {s : SourceText} {path : String} {a b : Symbol}

/-- The two definitions have one name at one place. -/
def Symbol.SameSite (a b : Symbol) : Prop :=
  a.name = b.name ∧ a.position = b.position

instance (a b : Symbol) : Decidable (a.SameSite b) :=
  inferInstanceAs (Decidable (a.name = b.name ∧ a.position = b.position))

/-- One of the two is a method, and the other is a method, a class or a function. -/
def SymbolKind.MayMeet (k k' : SymbolKind) : Prop :=
  k = .method ∧ (k' = .method ∨ k' = .type ∨ k' = .function) ∨
    k' = .method ∧ (k = .type ∨ k = .function)

instance (k k' : SymbolKind) : Decidable (k.MayMeet k') :=
  inferInstanceAs (Decidable (k = .method ∧ (k' = .method ∨ k' = .type ∨ k' = .function) ∨
    k' = .method ∧ (k = .type ∨ k = .function)))

theorem SymbolKind.MayMeet.symm {k k' : SymbolKind} (h : k.MayMeet k') : k'.MayMeet k := by
  unfold SymbolKind.MayMeet at *
  tauto

/-- At one site only such that may meet there. -/
def Symbol.Apart (a b : Symbol) : Prop :=
  a.SameSite b → a.kind.MayMeet b.kind

theorem Symbol.Apart.symm (h : a.Apart b) : b.Apart a :=
  fun hsite => (h ⟨hsite.1.symm, hsite.2.symm⟩).symm

theorem Symbol.apart_of_position_ne (h : a.position ≠ b.position) : a.Apart b :=
  fun hsite => absurd hsite.2 h

section Shared

theorem pairwise_inReadingOrder {symbols : List Symbol} (h : symbols.Pairwise Symbol.Apart) :
    (inReadingOrder symbols).Pairwise Symbol.Apart :=
  (List.Perm.pairwise_iff Symbol.Apart.symm (List.mergeSort_perm ..)).mpr h

theorem outermost_sublist {α : Type} (offset : α → Nat) (t : DepthTracker) (xs : List α) :
    (t.outermost offset xs).Sublist xs := by
  induction xs generalizing t with
  | nil => exact List.Sublist.refl []
  | cons a xs ih =>
    simp only [DepthTracker.outermost]
    split
    · exact (ih _).cons_cons a
    · exact (ih _).cons a

/-- Classes are recorded one after the other. -/
theorem pairwise_readClasses {p body : Pattern} {front back : List Pattern} {f : Char → Bool}
    (hp : p.Finds front body back f) {nested : Bool}
    {members : FoundName → Nat → Nat → List Symbol}
    (hmembers : ∀ n start stop, ∀ d ∈ members n start stop, d.kind = .method) {names : List FoundName}
    (hnames : names.Sublist (s.names p)) (bodies : List Span) :
    (readClasses s path nested members bodies names).symbols.Pairwise fun a b =>
      a.kind = b.kind → a.Apart b := by
  have hmethod : ∀ n, ∀ d ∈ (s.bodyFrom n.stop 0).symbols (members n), d.kind = .method := by
    intro n d hd
    obtain ⟨start, stop, -, hd⟩ := Body.mem_symbols_iff.mp hd
    exact hmembers n start stop d hd
  have hmethods : ∀ n, ∀ a ∈ (s.bodyFrom n.stop 0).symbols (members n), ∀ b : Symbol,
      a.kind = b.kind → a.Apart b :=
    fun n a ha b hab _ => Or.inl ⟨hmethod n a ha, Or.inl (hab ▸ hmethod n a ha)⟩
  have hclass : ∀ n n' : FoundName, ∀ b ∈ (s.bodyFrom n'.stop 0).symbols (members n'),
      (classSymbol s path n).kind = b.kind → (classSymbol s path n).Apart b := by
    intro n n' b hb hkind
    rw [hmethod n' b hb] at hkind
    cases hkind
  have hsub := (keptClasses_sublist s nested bodies names).trans hnames
  have hordered := (pairwise_start_namesIn hp s 0 s.length).sublist hsub
  rw [(readClasses_eq s path nested members bodies names).1, List.pairwise_flatMap]
  constructor
  · intro n _
    exact List.pairwise_cons.mpr ⟨hclass n n, List.pairwise_of_forall_mem_list fun a ha b _ =>
      hmethods n a ha b⟩
  · refine hordered.imp_of_mem fun {n n'} hn hn' hlt a ha b hb => ?_
    rcases List.mem_cons.mp ha with rfl | ha
    · rcases List.mem_cons.mp hb with rfl | hb
      · exact fun _ => Symbol.apart_of_position_ne ((records_symbolAt s path .type n _).position_ne
          (records_symbolAt s path .type n' _) hp (hsub.subset hn) (hsub.subset hn') hlt)
      · exact hclass n n' b hb
    · exact hmethods n a ha b

/-- Functions with names that one pattern finds are at different places. -/
theorem pairwise_found {p body : Pattern} {front back : List Pattern} {f : Char → Bool}
    (hp : p.Finds front body back f) {found : List FoundFunction}
    (hfound : (found.map FoundFunction.name).Sublist (s.names p)) :
    found.Pairwise fun g g' => s.positionAt g.name.start ≠ s.positionAt g'.name.start := by
  have hpairwise := (pairwise_start_namesIn hp s 0 s.length).sublist hfound
  rw [List.pairwise_map] at hpairwise
  refine hpairwise.imp_of_mem fun {g g'} hg hg' hlt => ?_
  exact (records_symbolAt s "" .function g.name g.stop).position_ne
    (records_symbolAt s "" .function g'.name g'.stop) hp
    (hfound.subset (List.mem_map_of_mem hg)) (hfound.subset (List.mem_map_of_mem hg')) hlt

/-- Values that are kept once for each text make symbols of distinct names. -/
theorem pairwise_map_firstPerKey {make : FoundName → Symbol}
    (hname : ∀ n, (make n).name = String.ofList n.text) (names : List FoundName) :
    ((firstPerKey FoundName.text [] names).map make).Pairwise Symbol.Apart := by
  have hdistinct := nodup_map_firstPerKey FoundName.text [] names
  rw [List.pairwise_map]
  refine (List.pairwise_map.mp hdistinct).imp fun {n n'} hne hsite => ?_
  rw [Symbol.SameSite, hname, hname] at hsite
  exact absurd (String.ofList_injective hsite.1) hne

end Shared

namespace Php

/-- The words and marks that lead up to a definition of the kind. -/
def marks : SymbolKind → List (List Char)
  | .type => ["class", "interface", "trait", "enum"].map String.toList
  | .function | .method => ["function", "&"].map String.toList
  | .variable => ["const", "'", "\""].map String.toList
  | .event => ["'", "\""].map String.toList
  | _ => []

theorem marksApart {k k' : SymbolKind} (hne : k ≠ k') (hmeet : ¬ k.MayMeet k')
    (hcall : ¬ (k = .variable ∧ k' = .event ∨ k = .event ∧ k' = .variable)) :
    MarksApart (marks k) (marks k') := by
  cases k <;> cases k' <;> first | decide | exact absurd rfl hne | exact absurd (by decide) hmeet |
    exact absurd (by decide) hcall

section Leads

theorem leads_classHead :
    (all [indent, .many true (all [keyword ["abstract", "final", "readonly"], gap]),
      keyword ["class", "interface", "trait", "enum"], gap]).Leads (marks .type) :=
  Leads.after (Leads.after
    (Leads.seq (leads_keyword (by decide)) (KeepsLead.seq keepsLead_gap keepsLead_empty))
    (by decide)) (by decide)

theorem leads_functionName :
    (all [literal "function", gap, optional (literal "&")]).Leads (marks .function) :=
  Leads.seq (leads_literal (by decide) (by decide)) (KeepsLead.seq keepsLead_gap
    (KeepsLead.seq (KeepsLead.optional ((leads_literal (by decide) (by decide)).keepsLead (by decide)))
      keepsLead_empty))

theorem leads_declaredConstant :
    (all [indent, literal "const", gap]).Leads (["const"].map String.toList) :=
  Leads.after (Leads.seq (leads_literal (by decide) (by decide))
    (KeepsLead.seq keepsLead_gap keepsLead_empty)) (by decide)

theorem leads_quote : (all [quote]).Leads (marks .event) := by
  refine Leads.seq (fun c d hd taken htaken => ?_) keepsLead_empty
  obtain ⟨a, ha, hnext⟩ := mem_ends_one hd
  obtain rfl := htaken.unique (Cursor.reads_next hnext)
  obtain rfl | rfl : a = '\'' ∨ a = '"' := by simpa using ha
  · exact ⟨['\''], by decide, by decide⟩
  · exact ⟨['"'], by decide, by decide⟩

theorem leads_call {name : Pattern} :
    (all [.wordEdge, name, blanks, literal "(", blanks, quote]).Leads (marks .event) :=
  Leads.after (Leads.after (Leads.after (Leads.after (Leads.after leads_quote (by decide)) (by decide))
    (by decide)) (by decide)) (by decide)

end Leads

theorem led_of_mem_constants {bodies : List Span} (h : a ∈ constants s path bodies) :
    a.kind = .variable ∧
      (a.Led s (fun pre => EndsWithAny (["const"].map String.toList) (trimEnd pre)) ∨
        a.Led s (fun pre => EndsWithAny (marks .event) (trimEnd pre)) ∧
          a.Led s fun pre => EndsWithAny (["define"].map String.toList) (callee pre)) := by
  obtain ⟨n, hmem, rfl, -⟩ := exists_of_mem_constants h
  have hrecords := records_symbolAt s path .variable n n.stop
  refine ⟨rfl, ?_⟩
  rcases hmem with hmem | hmem
  · obtain ⟨pre, post, hstands, hquote⟩ := exists_led finds_definedConstant leads_call (by decide)
      (List.nil_append s.chars).symm rfl hmem
    obtain ⟨pre', post', hstands', hcall⟩ := exists_called finds_definedConstant
      (fun _ _ hd => ⟨"define", List.mem_singleton_self _, reads_literal hd⟩) (by decide) hmem
    exact Or.inr ⟨hrecords.led hstands hquote, hrecords.led hstands' hcall⟩
  · obtain ⟨pre, post, hstands, hconst⟩ := exists_led finds_declaredConstant leads_declaredConstant
      (by decide) (List.nil_append s.chars).symm rfl hmem
    exact Or.inl (hrecords.led hstands hconst)

theorem led_of_mem_events (h : a ∈ readEvents s path (s.names firedHook)) :
    a.kind = .event ∧ a.Led s (fun pre => EndsWithAny (marks .event) (trimEnd pre)) ∧
      a.Led s fun pre =>
        EndsWithAny (["do_action", "apply_filters"].map String.toList) (callee pre) := by
  obtain ⟨n, hn, hkind, hrecords⟩ := mem_readEvents h
  obtain ⟨pre, post, hstands, hquote⟩ := exists_led finds_firedHook leads_call (by decide)
    (List.nil_append s.chars).symm rfl hn
  obtain ⟨pre', post', hstands', hcall⟩ := exists_called finds_firedHook
    (fun _ _ hd => reads_keyword hd) (by decide) hn
  exact ⟨hkind, hrecords.led hstands hquote, hrecords.led hstands' hcall⟩

/-- A constant and a hook are at two places: one is led by `define` or `const`, the other by what fires
a hook. -/
theorem position_ne_of_constant_of_event {bodies : List Span} (ha : a ∈ constants s path bodies)
    (hb : b ∈ readEvents s path (s.names firedHook)) : a.position ≠ b.position := by
  obtain ⟨-, hquote, hcall⟩ := led_of_mem_events hb
  rcases (led_of_mem_constants ha).2 with hconst | ⟨-, hdefine⟩
  · exact hconst.position_ne hquote fun pre h => h.not_of_apart (by decide)
  · exact hdefine.position_ne hcall fun pre h => h.not_of_apart (by decide)

/-- A definition stands behind one of the marks of its kind. -/
def Marked (s : SourceText) (a : Symbol) : Prop :=
  a.Led s fun pre => EndsWithAny (marks a.kind) (trimEnd pre)

theorem marked_of_led {kind : SymbolKind} (hkind : a.kind = kind)
    (h : a.Led s fun pre => EndsWithAny (marks kind) (trimEnd pre)) : Marked s a := by
  rw [Marked, hkind]
  exact h

theorem Marked.apart (ha : Marked s a) (hb : Marked s b) (hne : a.kind ≠ b.kind)
    (hcall : ¬ (a.kind = .variable ∧ b.kind = .event ∨ a.kind = .event ∧ b.kind = .variable)) :
    a.Apart b := by
  by_cases hmeet : a.kind.MayMeet b.kind
  · exact fun _ => hmeet
  · exact Symbol.apart_of_position_ne
      (ha.position_ne hb fun pre h => h.not_of_apart (marksApart hne hmeet hcall))

/-- Definitions of different kinds, other than constants and hooks. -/
theorem apart_of_kinds {ks ks' : List SymbolKind} (hks : ∀ k ∈ ks, ∀ k' ∈ ks', k ≠ k' ∧
      ¬ (k = .variable ∧ k' = .event ∨ k = .event ∧ k' = .variable))
    (ha : a.kind ∈ ks ∧ Marked s a) (hb : b.kind ∈ ks' ∧ Marked s b) : a.Apart b :=
  ha.2.apart hb.2 (hks _ ha.1 _ hb.1).1 (hks _ ha.1 _ hb.1).2

theorem kind_of_mem_methods {owner : FoundName} {start stop : Nat}
    (h : a ∈ methods s path owner start stop) : a.kind = .method := by
  obtain ⟨n, last, rfl, -⟩ := exists_of_mem_methods h
  rfl

theorem marked_of_mem_classes
    (h : a ∈ (readClasses s path false (methods s path) [] (s.names classHead)).symbols) :
    a.kind ∈ [SymbolKind.type, .method] ∧ Marked s a := by
  rcases mem_readClasses h with ⟨n, hn, hkind, hrecords⟩ | ⟨n, -, start, stop, hbody, hmember⟩
  · obtain ⟨pre, post, hstands, hmark⟩ := exists_led finds_classHead leads_classHead (by decide)
      (List.nil_append s.chars).symm rfl hn
    exact ⟨by simp [hkind], marked_of_led hkind (hrecords.led hstands hmark)⟩
  · obtain ⟨m, last, rfl, -, hfound⟩ := exists_of_mem_methods hmember
    obtain ⟨pre, rest, hchars, hstart⟩ := exists_bodyFrom hbody
    obtain ⟨pre', post', hstands, hmark⟩ := exists_led finds_methodHead
      (Leads.after (Leads.after leads_functionName (by decide)) (by decide)) (by decide) hchars hstart
      hfound
    exact ⟨List.mem_cons_of_mem _ List.mem_cons_self,
      Symbol.Records.led ⟨String.toList_ofList, rfl⟩ hstands hmark⟩

theorem marked_of_mem_functions {bodies : List Span} (h : a ∈ functions s path bodies) :
    a.kind ∈ [SymbolKind.function] ∧ Marked s a := by
  obtain ⟨n, hn, ⟨stop, rfl⟩, -⟩ := exists_of_mem_functions h
  obtain ⟨pre, post, hstands, hmark⟩ := exists_led finds_functionHead
    (Leads.after leads_functionName (by decide)) (by decide) (List.nil_append s.chars).symm rfl hn
  exact ⟨List.mem_cons_self, (records_symbolAt s path .function n stop).led hstands hmark⟩

theorem marked_of_mem_constants {bodies : List Span} (h : a ∈ constants s path bodies) :
    a.kind ∈ [SymbolKind.variable] ∧ Marked s a := by
  obtain ⟨hkind, hled⟩ := led_of_mem_constants h
  refine ⟨by simp [hkind], marked_of_led hkind ?_⟩
  rcases hled with hconst | ⟨hquote, -⟩
  · exact hconst.imp fun pre h => h.mono (by decide)
  · exact hquote.imp fun pre h => h.mono (by decide)

theorem marked_of_mem_events (h : a ∈ readEvents s path (s.names firedHook)) :
    a.kind ∈ [SymbolKind.event] ∧ Marked s a := by
  obtain ⟨hkind, hquote, -⟩ := led_of_mem_events h
  exact ⟨by simp [hkind], marked_of_led hkind hquote⟩

theorem pairwise_classes :
    (readClasses s path false (methods s path) [] (s.names classHead)).symbols.Pairwise
      Symbol.Apart := by
  refine (pairwise_readClasses finds_classHead (fun _ _ _ _ => kind_of_mem_methods)
    (List.Sublist.refl _) []).imp_of_mem fun {a b} ha hb h => ?_
  by_cases hkind : a.kind = b.kind
  · exact h hkind
  · obtain ⟨hka, hma⟩ := marked_of_mem_classes ha
    exact hma.apart (marked_of_mem_classes hb).2 hkind (by
      rintro (⟨hk, -⟩ | ⟨hk, -⟩) <;> simp [hk] at hka)

theorem pairwise_functions (bodies : List Span) :
    (functions s path bodies).Pairwise Symbol.Apart := by
  unfold functions
  rw [List.pairwise_map]
  refine (List.Pairwise.sublist List.filter_sublist (pairwise_found finds_functionHead ?_)).imp
    Symbol.apart_of_position_ne
  rw [List.map_map]
  exact (List.map_id' _).symm ▸ List.filter_sublist

/-- Definitions of a file at one site are methods, or a method and a class or a function. -/
theorem pairwise_definitions (s : SourceText) (path : String) :
    (definitions s path).symbols.Pairwise Symbol.Apart := by
  apply pairwise_inReadingOrder
  refine List.pairwise_append.mpr ⟨List.pairwise_append.mpr ⟨List.pairwise_append.mpr
    ⟨pairwise_classes, pairwise_functions _, ?_⟩, pairwise_map_firstPerKey (fun _ => rfl) _, ?_⟩,
    pairwise_map_firstPerKey (fun _ => rfl) _, ?_⟩
  · exact fun a ha b hb =>
      apart_of_kinds (by decide) (marked_of_mem_classes ha) (marked_of_mem_functions hb)
  · intro a ha b hb
    rcases List.mem_append.mp ha with ha | ha
    · exact apart_of_kinds (by decide) (marked_of_mem_classes ha) (marked_of_mem_constants hb)
    · exact apart_of_kinds (by decide) (marked_of_mem_functions ha) (marked_of_mem_constants hb)
  · intro a ha b hb
    rcases List.mem_append.mp ha with ha | ha
    · rcases List.mem_append.mp ha with ha | ha
      · exact apart_of_kinds (by decide) (marked_of_mem_classes ha) (marked_of_mem_events hb)
      · exact apart_of_kinds (by decide) (marked_of_mem_functions ha) (marked_of_mem_events hb)
    · exact Symbol.apart_of_position_ne (position_ne_of_constant_of_event ha hb)

end Php

namespace JavaScript

/-- The words and marks that lead up to a class, a function or an event. -/
def marks : SymbolKind → List (List Char)
  | .type => ["class"].map String.toList
  | .function => ["function", "*", "const", "let", "var"].map String.toList
  | .event => ["'", "\"", "`"].map String.toList
  | _ => []

theorem isQuote_of_isBlank {c : Char} (h : isBlank c = true) : isQuote c = false := by
  rw [Bool.eq_false_iff]
  intro hquote
  obtain rfl | rfl | rfl := eq_of_isQuote hquote <;> exact absurd h (by decide)

section Leads

theorem leads_classHead :
    (all [indent, exported, literal "class", gap]).Leads (marks .type) :=
  Leads.after (Leads.after (Leads.seq (leads_literal (by decide) (by decide))
    (KeepsLead.seq keepsLead_gap keepsLead_empty)) (by decide)) (by decide)

theorem leads_functionHead : (all [indent, exported, async, literal "function", blanks,
    optional (literal "*"), blanks]).Leads (["function", "*"].map String.toList) :=
  Leads.after (Leads.after (Leads.after (Leads.seq (leads_literal (by decide) (by decide))
    (KeepsLead.seq keepsLead_blanks (KeepsLead.seq
      (KeepsLead.optional ((leads_literal (by decide) (by decide)).keepsLead (by decide)))
      (KeepsLead.seq keepsLead_blanks keepsLead_empty)))) (by decide)) (by decide)) (by decide)

theorem leads_assignedFunction : (all [indent, optional (.seq (literal "export") gap),
    keyword ["const", "let", "var"], gap]).Leads (["const", "let", "var"].map String.toList) :=
  Leads.after (Leads.after (Leads.seq (leads_keyword (by decide))
    (KeepsLead.seq keepsLead_gap keepsLead_empty)) (by decide)) (by decide)

theorem leads_quote : (all [quote]).Leads (marks .event) := by
  refine Leads.seq (fun c d hd taken htaken => ?_) keepsLead_empty
  obtain ⟨a, ha, hnext⟩ := mem_ends_one hd
  obtain rfl := htaken.unique (Cursor.reads_next hnext)
  obtain rfl | rfl | rfl := eq_of_isQuote ha
  · exact ⟨['\''], by decide, by decide⟩
  · exact ⟨['"'], by decide, by decide⟩
  · exact ⟨['`'], by decide, by decide⟩

theorem leads_firedEvent {fired : Pattern} :
    (all [fired, blanks, literal "(", blanks, quote]).Leads (marks .event) :=
  Leads.after (Leads.after (Leads.after (Leads.after leads_quote (by decide)) (by decide))
    (by decide)) (by decide)

theorem firedEvent_endsIn {fired : Pattern} :
    (all [fired, blanks, literal "(", blanks, quote]).EndsIn fun o => edge isQuote o = false :=
  EndsIn.after (EndsIn.after (EndsIn.after (EndsIn.after
    (EndsIn.seq (endsIn_one fun _ ha => congrArg Bool.not ha) keeps_empty))))

end Leads

theorem led_of_mem_classes
    (h : a ∈ (readClasses s path true (methods s path) [] (s.names classHead)).symbols) :
    a.kind = .type ∧ a.Led s (fun pre => EndsWithAny (marks .type) (trimEnd pre)) ∨
      a.kind = .method ∧ a.Led s fun pre => edge isQuote pre.getLast? = true := by
  rcases mem_readClasses h with ⟨n, hn, hkind, hrecords⟩ | ⟨n, -, start, stop, hbody, hmember⟩
  · obtain ⟨pre, post, hstands, hmark⟩ := exists_led finds_classHead leads_classHead (by decide)
      (List.nil_append s.chars).symm rfl hn
    exact Or.inl ⟨hkind, hrecords.led hstands hmark⟩
  · obtain ⟨n, last, rfl, -, hfound⟩ := exists_of_mem_methods hmember
    obtain ⟨pre, rest, hchars, hstart⟩ := exists_bodyFrom hbody
    have hblank : ∀ a, isBlank a = true → edge isQuote (some a) = true := by
      intro a ha
      simp [edge, isQuote_of_isBlank ha]
    have hlead : edge isQuote none = true → edge isQuote (pre ++ ['{']).getLast? = true := by
      intro _
      rw [List.getLast?_append]
      rfl
    refine Or.inr ⟨rfl, ?_⟩
    rcases hfound with hfound | hfound
    · obtain ⟨pre', post', hstands, hbefore⟩ := exists_before finds_methodHead
        (methodHead_endsIn (P := fun o => edge isQuote o = true) rfl hblank rfl) hlead hchars hstart
        hfound
      exact Symbol.Records.led ⟨String.toList_ofList, rfl⟩ hstands hbefore
    · obtain ⟨pre', post', hstands, hbefore⟩ := exists_before finds_arrowField
        (arrowField_endsIn (P := fun o => edge isQuote o = true) rfl hblank) hlead hchars hstart
        hfound
      exact Symbol.Records.led ⟨String.toList_ofList, rfl⟩ hstands hbefore

theorem led_of_mem_events (h : a ∈ readEvents s path (s.names firedEvent)) :
    a.kind = .event ∧ a.Led s (fun pre => EndsWithAny (marks .event) (trimEnd pre)) ∧
      a.Led s fun pre => edge isQuote pre.getLast? = false := by
  obtain ⟨n, hn, hkind, hrecords⟩ := mem_readEvents h
  obtain ⟨pre, post, hstands, hmark⟩ := exists_led finds_firedEvent leads_firedEvent (by decide)
    (List.nil_append s.chars).symm rfl hn
  obtain ⟨pre', post', hstands', hbefore⟩ := exists_before finds_firedEvent firedEvent_endsIn
    (fun hnone => by cases hnone) (List.nil_append s.chars).symm rfl hn
  exact ⟨hkind, hrecords.led hstands hmark, hrecords.led hstands' hbefore⟩

/-- A function is declared or assigned, and led accordingly. -/
theorem led_of_mem_functions {bodies : List Span} (h : a ∈ functions s path bodies) :
    a.kind = .function ∧ a.Led s fun pre => EndsWithAny (marks .function) (trimEnd pre) := by
  obtain ⟨n, stop, rfl, -, hn⟩ := exists_of_mem_functions h
  have hrecords := records_symbolAt s path .function n stop
  refine ⟨rfl, ?_⟩
  rcases hn with hn | hn
  · obtain ⟨pre, post, hstands, hmark⟩ := exists_led finds_functionHead leads_functionHead (by decide)
      (List.nil_append s.chars).symm rfl hn
    exact hrecords.led hstands (hmark.mono (by decide))
  · obtain ⟨pre, post, hstands, hmark⟩ := exists_led finds_assignedFunction leads_assignedFunction
      (by decide) (List.nil_append s.chars).symm rfl hn
    exact hrecords.led hstands (hmark.mono (by decide))

/-- Functions are at different places: declared ones, assigned ones, and the ones among the others. -/
theorem pairwise_functions (bodies : List Span) :
    (functions s path bodies).Pairwise Symbol.Apart := by
  unfold functions
  rw [List.pairwise_map]
  refine (List.Pairwise.sublist List.filter_sublist (List.pairwise_append.mpr
    ⟨pairwise_found finds_functionHead ?_, pairwise_found finds_assignedFunction ?_, ?_⟩)).imp
    Symbol.apart_of_position_ne
  · rw [List.map_map]
    exact (List.map_id' _).symm ▸ List.filter_sublist
  · rw [List.map_map]
    exact (List.map_id' _).symm ▸ List.filter_sublist.trans (outermost_sublist ..)
  · intro g hg g' hg'
    obtain ⟨n, hn, rfl⟩ := List.mem_map.mp hg
    obtain ⟨n', hn', rfl⟩ := List.mem_map.mp hg'
    obtain ⟨pre, post, hstands, hmark⟩ := exists_led finds_functionHead leads_functionHead (by decide)
      (List.nil_append s.chars).symm rfl (List.mem_filter.mp hn).1
    obtain ⟨pre', post', hstands', hmark'⟩ := exists_led finds_assignedFunction leads_assignedFunction
      (by decide) (List.nil_append s.chars).symm rfl (mem_of_mem_outermost (List.mem_filter.mp hn').1)
    have hled : (s.symbolAt path .function n.text n.start 0).Led s fun pre =>
        EndsWithAny (["function", "*"].map String.toList) (trimEnd pre) :=
      (records_symbolAt ..).led hstands hmark
    have hled' : (s.symbolAt path .function n'.text n'.start 0).Led s fun pre =>
        EndsWithAny (["const", "let", "var"].map String.toList) (trimEnd pre) :=
      (records_symbolAt ..).led hstands' hmark'
    exact hled.position_ne hled' fun pre h => h.not_of_apart (by decide)

theorem kind_of_mem_methods {owner : FoundName} {start stop : Nat}
    (h : a ∈ methods s path owner start stop) : a.kind = .method := by
  obtain ⟨n, last, rfl, -⟩ := exists_of_mem_methods h
  rfl

theorem pairwise_classes :
    (readClasses s path true (methods s path) [] (s.names classHead)).symbols.Pairwise
      Symbol.Apart := by
  refine (pairwise_readClasses finds_classHead (fun _ _ _ _ => kind_of_mem_methods)
    (List.Sublist.refl _) []).imp_of_mem fun {a b} ha hb h => ?_
  by_cases hkind : a.kind = b.kind
  · exact h hkind
  · intro _
    rcases led_of_mem_classes ha with ⟨hka, -⟩ | ⟨hka, -⟩ <;>
      rcases led_of_mem_classes hb with ⟨hkb, -⟩ | ⟨hkb, -⟩ <;> simp_all [SymbolKind.MayMeet]

/-- Definitions of a file at one site are methods, or a method and a class or a function. -/
theorem pairwise_definitions (s : SourceText) (path : String) :
    (definitions s path).symbols.Pairwise Symbol.Apart := by
  apply pairwise_inReadingOrder
  refine List.pairwise_append.mpr ⟨List.pairwise_append.mpr
    ⟨pairwise_classes, pairwise_functions _, ?_⟩, pairwise_map_firstPerKey (fun _ => rfl) _, ?_⟩
  · intro a ha b hb
    obtain ⟨hkb, hled⟩ := led_of_mem_functions hb
    rcases led_of_mem_classes ha with ⟨-, hclass⟩ | ⟨hka, -⟩
    · exact Symbol.apart_of_position_ne
        (hclass.position_ne hled fun pre h => h.not_of_apart (by decide))
    · exact fun _ => Or.inl ⟨hka, Or.inr (Or.inr hkb)⟩
  · intro a ha b hb
    obtain ⟨-, hmark, hquote⟩ := led_of_mem_events hb
    rcases List.mem_append.mp ha with ha | ha
    · rcases led_of_mem_classes ha with ⟨-, hclass⟩ | ⟨-, hmethod⟩
      · exact Symbol.apart_of_position_ne
          (hclass.position_ne hmark fun pre h => h.not_of_apart (by decide))
      · exact Symbol.apart_of_position_ne
          (hmethod.position_ne hquote fun pre h h' => by rw [h] at h'; cases h')
    · exact Symbol.apart_of_position_ne
        ((led_of_mem_functions ha).2.position_ne hmark fun pre h => h.not_of_apart (by decide))

end JavaScript

/-- In a stylesheet each name is defined once. -/
theorem Stylesheet.pairwise_definitions (s : SourceText) (path : String) :
    (definitions s path).symbols.Pairwise Symbol.Apart := by
  apply pairwise_inReadingOrder
  have hdistinct := nodup_map_firstPerKey Symbol.name []
    ((selectorsFrom s path 0 0 [] (s.codeFrom 0)).symbols ++ propertiesAndVariables s path)
  exact (List.pairwise_map.mp hdistinct).imp fun hne hsite => absurd hsite.1 hne

/-- Two definitions of a file are at one site only if one is a method and the other a method, a class or
a function. -/
theorem Language.pairwise_definitions (language : Language) (content path : String) :
    (language.definitions content path).symbols.Pairwise Symbol.Apart := by
  cases language with
  | php => exact Php.pairwise_definitions _ path
  | javascript => exact JavaScript.pairwise_definitions _ path
  | css => exact Stylesheet.pairwise_definitions _ path

end Concordance
