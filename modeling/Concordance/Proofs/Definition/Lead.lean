import Concordance.Proofs.Definition.Standing

/-!
What leads up to a name: the word or the mark that its pattern reads right before it.

Two patterns that found a name at one place would have read their marks before it, both of them. Where
no mark of the one ends with a mark of the other (`MarksApart`) this cannot be. Main statements:
`exists_led` (a name stands behind one of the marks of its pattern), `exists_called` (or in a call, as
its first argument), `pairwise_start_namesIn` (one pattern finds its names one after the other) and
`Symbol.Led.position_ne`.
-/

namespace Concordance

open Text Pattern

section Marks

variable {marks marks' : List (List Char)} {text : List Char}

/-- The text ends with one of the marks. -/
def EndsWithAny (marks : List (List Char)) (text : List Char) : Prop :=
  ∃ mark ∈ marks, mark <:+ text

/-- No mark of either list ends with one of the other. -/
def MarksApart (marks marks' : List (List Char)) : Prop :=
  ∀ m ∈ marks, ∀ m' ∈ marks', ¬ m <:+ m' ∧ ¬ m' <:+ m

instance (marks marks' : List (List Char)) : Decidable (MarksApart marks marks') :=
  inferInstanceAs (Decidable (∀ m ∈ marks, ∀ m' ∈ marks', ¬ m <:+ m' ∧ ¬ m' <:+ m))

theorem EndsWithAny.not_of_apart (h : EndsWithAny marks text) (hapart : MarksApart marks marks') :
    ¬ EndsWithAny marks' text := by
  obtain ⟨m, hm, hsuffix⟩ := h
  rintro ⟨m', hm', hsuffix'⟩
  obtain ⟨hnot, hnot'⟩ := hapart m hm m' hm'
  exact (List.suffix_or_suffix_of_suffix hsuffix hsuffix').elim hnot hnot'

theorem EndsWithAny.mono (h : EndsWithAny marks text) (hsub : marks ⊆ marks') :
    EndsWithAny marks' text := by
  obtain ⟨m, hm, hsuffix⟩ := h
  exact ⟨m, hsub hm, hsuffix⟩

/-- A mark at the end of a text is at the end of a longer one. -/
theorem EndsWithAny.trimEnd_append (h : EndsWithAny marks (trimEnd text)) (hne : [] ∉ marks)
    (front : List Char) : EndsWithAny marks (trimEnd (front ++ text)) := by
  obtain ⟨m, hm, hsuffix⟩ := h
  have htext : trimEnd text ≠ [] := by
    intro hnil
    rw [hnil, List.suffix_nil] at hsuffix
    exact hne (hsuffix ▸ hm)
  rw [trimEnd_append_of_ne_nil front htext]
  exact ⟨m, hm, hsuffix.trans (List.suffix_append front _)⟩

theorem EndsWithAny.append_blank (h : EndsWithAny marks (trimEnd text)) {blank : List Char}
    (hblank : AllBlank blank) : EndsWithAny marks (trimEnd (text ++ blank)) := by
  rwa [trimEnd_append_blank hblank]

end Marks

namespace Pattern

variable {p q : Pattern} {marks : List (List Char)} {c e : Cursor} {taken : List Char}

/-- What a match reads ends with one of the marks, but for white space. -/
def Leads (marks : List (List Char)) (p : Pattern) : Prop :=
  ∀ ⦃c d : Cursor⦄, d ∈ p.ends c → ∀ taken, c.Reads taken d → EndsWithAny marks (trimEnd taken)

/-- A text that ends with one of the marks, but for white space, still does so with a match behind
it. -/
def KeepsLead (marks : List (List Char)) (p : Pattern) : Prop :=
  ∀ ⦃c d : Cursor⦄, d ∈ p.ends c → ∀ taken, c.Reads taken d →
    ∀ text, EndsWithAny marks (trimEnd text) → EndsWithAny marks (trimEnd (text ++ taken))

theorem Leads.keepsLead (hp : p.Leads marks) (hne : [] ∉ marks) : p.KeepsLead marks :=
  fun _ _ hd taken htaken text _ => (hp hd taken htaken).trimEnd_append hne text

theorem Leads.seq (hp : p.Leads marks) (hq : q.KeepsLead marks) : (seq p q).Leads marks := by
  intro c d h taken htaken
  obtain ⟨e, first, more, he, hd, hfirst, hmore, rfl⟩ := exists_reads_of_mem_seq h htaken
  exact hq hd more hmore first (hp he first hfirst)

theorem Leads.after (hq : q.Leads marks) (hne : [] ∉ marks) : (Pattern.seq p q).Leads marks := by
  intro c d h taken htaken
  obtain ⟨e, first, more, he, hd, hfirst, hmore, rfl⟩ := exists_reads_of_mem_seq h htaken
  exact (hq hd more hmore).trimEnd_append hne first

theorem KeepsLead.seq (hp : p.KeepsLead marks) (hq : q.KeepsLead marks) :
    (seq p q).KeepsLead marks := by
  intro c d h taken htaken text htext
  obtain ⟨e, first, more, he, hd, hfirst, hmore, rfl⟩ := exists_reads_of_mem_seq h htaken
  rw [← List.append_assoc]
  exact hq hd more hmore _ (hp he first hfirst text htext)

theorem keepsLead_empty : empty.KeepsLead marks := by
  intro c d h taken htaken text htext
  obtain rfl := List.mem_singleton.mp h
  obtain rfl := htaken.unique (.refl d)
  rwa [List.append_nil]

theorem KeepsLead.optional (hp : p.KeepsLead marks) : (optional p).KeepsLead marks :=
  fun _ _ h => (mem_ends_alt.mp h).elim (fun h => hp h) fun h => keepsLead_empty h

theorem keepsLead_of_readsOnly (hp : p.ReadsOnly isBlank) : p.KeepsLead marks :=
  fun _ _ hd taken htaken _ htext => htext.append_blank (hp hd taken htaken)

theorem keepsLead_blanks : blanks.KeepsLead marks :=
  keepsLead_of_readsOnly (readsOnly_run fun _ h => h)

theorem keepsLead_gap : gap.KeepsLead marks :=
  keepsLead_of_readsOnly (ReadsOnly.seq (readsOnly_one fun _ h => h) (readsOnly_run fun _ h => h))

theorem leads_keyword {texts : List String}
    (h : ∀ text ∈ texts, text.toList ∈ marks ∧ trimEnd text.toList = text.toList) :
    (keyword texts).Leads marks := by
  intro c d hd taken htaken
  obtain ⟨text, htext, hreads⟩ := reads_keyword hd
  obtain rfl := htaken.unique hreads
  exact ⟨text.toList, (h text htext).1, [], (h text htext).2.symm⟩

theorem leads_literal {text : String} (h : text.toList ∈ marks)
    (htrim : trimEnd text.toList = text.toList) : (literal text).Leads marks := by
  intro c d hd taken htaken
  obtain rfl := htaken.unique (reads_literal hd)
  exact ⟨text.toList, h, [], htrim.symm⟩

/-- What stands before the parenthesis of a call, given what stands before its first argument with its
quote. -/
def callee (before : List Char) : List Char :=
  trimEnd (trimEnd before.dropLast).dropLast

/-- A call up to its first argument, which is quoted, reads the name of what is called. -/
theorem endsWithAny_callee {name : Pattern} {f : Char → Bool} {names : List String}
    (hname : ∀ ⦃c d : Cursor⦄, d ∈ name.ends c → ∃ k ∈ names, c.Reads k.toList d)
    (hnames : ∀ k ∈ names, k.toList ≠ [] ∧ trimEnd k.toList = k.toList)
    (h : e ∈ (all [.wordEdge, name, blanks, literal "(", blanks, .one f]).ends c)
    (htaken : c.Reads taken e) (front : List Char) :
    EndsWithAny (names.map String.toList) (callee (front ++ taken)) := by
  obtain ⟨c₁, hedge, h⟩ := mem_ends_seq.mp h
  obtain ⟨c₂, hk, h⟩ := mem_ends_seq.mp h
  obtain ⟨c₃, hblank, h⟩ := mem_ends_seq.mp h
  obtain ⟨c₄, hopen, h⟩ := mem_ends_seq.mp h
  obtain ⟨c₅, hblank', h⟩ := mem_ends_seq.mp h
  obtain ⟨c₆, hquote, h⟩ := mem_ends_seq.mp h
  obtain rfl := List.mem_singleton.mp h
  obtain ⟨none', hnone⟩ := exists_reads_of_mem_ends hedge
  obtain ⟨k, hmem, hk⟩ := hname hk
  obtain ⟨b, hb⟩ := exists_reads_of_mem_ends hblank
  obtain ⟨b', hb'⟩ := exists_reads_of_mem_ends hblank'
  obtain ⟨quote, -, hnext⟩ := mem_ends_one hquote
  have hreads := hnone.trans (hk.trans (hb.trans ((reads_literal hopen).trans
    (hb'.trans (Cursor.reads_next hnext)))))
  obtain rfl := htaken.unique hreads
  have hbBlank : AllBlank b := readsOnly_run (fun _ h => h) hblank b hb
  have hbBlank' : AllBlank b' := readsOnly_run (fun _ h => h) hblank' b' hb'
  obtain ⟨hne, htrim⟩ := hnames k hmem
  have hparen : (front ++ none' ++ k.toList ++ b ++ ['('] ++ b' ++ [quote]).dropLast =
      front ++ none' ++ k.toList ++ b ++ ['('] ++ b' := List.dropLast_concat
  refine ⟨k.toList, List.mem_map_of_mem hmem, front ++ none', ?_⟩
  have htext : front ++ (none' ++ (k.toList ++ (b ++ ("(".toList ++ (b' ++ [quote]))))) =
      front ++ none' ++ k.toList ++ b ++ ['('] ++ b' ++ [quote] := by
    simp
  rw [htext, callee, hparen, trimEnd_append_blank hbBlank', trimEnd_concat _ (by decide),
    List.dropLast_concat, trimEnd_append_blank hbBlank, trimEnd_append_of_ne_nil _ (by rwa [htrim]),
    htrim]

end Pattern

section Names

variable {s : SourceText} {p body : Pattern} {front back : List Pattern} {f : Char → Bool}
  {n : FoundName} {lead rest : List Char} {start stop : Nat}

/-- A name stands behind one of the marks that its pattern reads before it. -/
theorem exists_led {marks : List (List Char)} (hp : p.Finds front body back f)
    (hleads : (all front).Leads marks) (hne : [] ∉ marks) (hchars : s.chars = lead ++ rest)
    (hstart : byteLength lead = start) (h : n ∈ s.namesIn p start stop) :
    ∃ pre post, n.StandsIn s pre post ∧ EndsWithAny marks (trimEnd pre) := by
  obtain ⟨c, e, g, d, passed, taken, post, htaken, he, hg, -, hreads, hall, hoffset, -⟩ :=
    exists_reading hp hchars hstart h
  exact ⟨lead ++ passed ++ taken, g.rest ++ post, ⟨hall, hoffset, hp.advances.ne_nil hg hreads⟩,
    (hleads he taken htaken).trimEnd_append hne (lead ++ passed)⟩

/-- A name that its pattern finds as the first argument of a call, in quotes. -/
theorem exists_called {name : Pattern} {quote : Char → Bool} {names : List String}
    (hp : p.Finds [.wordEdge, name, blanks, literal "(", blanks, .one quote] body back f)
    (hname : ∀ ⦃c d : Cursor⦄, d ∈ name.ends c → ∃ k ∈ names, c.Reads k.toList d)
    (hnames : ∀ k ∈ names, k.toList ≠ [] ∧ trimEnd k.toList = k.toList) (h : n ∈ s.names p) :
    ∃ pre post, n.StandsIn s pre post ∧ EndsWithAny (names.map String.toList) (callee pre) := by
  obtain ⟨c, e, g, d, passed, taken, post, htaken, he, hg, -, hreads, hall, hoffset, -⟩ :=
    exists_reading hp (List.nil_append s.chars).symm rfl h
  exact ⟨[] ++ passed ++ taken, g.rest ++ post, ⟨hall, hoffset, hp.advances.ne_nil hg hreads⟩,
    endsWithAny_callee hname hnames he htaken ([] ++ passed)⟩

/-- A name stands behind a character that its pattern allows, or right behind `lead`. -/
theorem exists_before {P : Option Char → Prop} (hp : p.Finds front body back f)
    (hbefore : (all front).EndsIn P) (hlead : P none → P lead.getLast?)
    (hchars : s.chars = lead ++ rest) (hstart : byteLength lead = start)
    (h : n ∈ s.namesIn p start stop) : ∃ pre post, n.StandsIn s pre post ∧ P pre.getLast? := by
  obtain ⟨c, e, g, d, pre, post, he, hg, -, hreads, hall, hpre, hlast⟩ :=
    exists_found hp hchars hstart h
  refine ⟨pre, g.rest ++ post, ⟨hall, hpre, hp.advances.ne_nil hg hreads⟩, ?_⟩
  have hchar := hbefore he
  rw [hlast]
  cases hcase : e.before with
  | none =>
    rw [hcase] at hchar
    exact hlead hchar
  | some a =>
    rw [hcase] at hchar
    exact hchar

/-- One pattern finds its names one after the other. -/
theorem pairwise_start_namesIn (hp : p.Finds front body back f) (s : SourceText) (start stop : Nat) :
    (s.namesIn p start stop).Pairwise fun n n' => n.start < n'.start := by
  have hwithin : ∀ m ∈ p.searchAll start (s.slice start stop), ∀ g, m.group? 1 = some g →
      m.span.start ≤ g.start ∧ g.start < m.span.stop := by
    intro m hm g hg
    obtain ⟨passed, found, d, -, hd, rfl⟩ := mem_searchAll hm
    obtain ⟨e, he, e', he', hd, hgroups⟩ := hp.exists_cut hd
    have hgroup : g = ⟨e.offset, e'.offset⟩ := by
      simpa [Match.group?, hgroups] using hg.symm
    subst hgroup
    have hback := offset_le_of_mem_ends hd
    exact ⟨offset_le_of_mem_ends he, Nat.lt_of_lt_of_le (hp.advances he') hback⟩
  refine List.pairwise_filterMap.mpr (List.Pairwise.imp_of_mem ?_ (pairwise_searchAllFrom ..))
  intro m m' hm hm' hle n hn n' hn'
  obtain ⟨g, hg, rfl⟩ := Option.map_eq_some_iff.mp hn
  obtain ⟨g', hg', rfl⟩ := Option.map_eq_some_iff.mp hn'
  exact Nat.lt_of_lt_of_le (hwithin m hm g hg).2 (hle.trans (hwithin m' hm' g' hg').1)

end Names

section Symbols

variable {s : SourceText} {a b : Symbol} {P Q : List Char → Prop}

/-- The symbol is recorded at a place of the text that has the property, given by what stands before
it. -/
def Symbol.Led (a : Symbol) (s : SourceText) (P : List Char → Prop) : Prop :=
  ∃ pre post, s.chars = pre ++ post ∧ a.position = s.positionAt (byteLength pre) ∧ P pre

theorem Symbol.Records.led {n : FoundName} {pre post : List Char} (h : a.Records s n)
    (hstands : n.StandsIn s pre post) (hpre : P pre) : a.Led s P :=
  ⟨pre, n.text ++ post, by rw [hstands.chars, List.append_assoc],
    by rw [h.position, hstands.start], hpre⟩

theorem Symbol.Led.imp (h : a.Led s P) (hPQ : ∀ pre, P pre → Q pre) : a.Led s Q := by
  obtain ⟨pre, post, hchars, hposition, hpre⟩ := h
  exact ⟨pre, post, hchars, hposition, hPQ pre hpre⟩

/-- Symbols that are led by what cannot be at one place are at two places. -/
theorem Symbol.Led.position_ne (ha : a.Led s P) (hb : b.Led s Q) (hPQ : ∀ pre, P pre → ¬ Q pre) :
    a.position ≠ b.position := by
  obtain ⟨pre, post, hchars, hposition, hpre⟩ := ha
  obtain ⟨pre', post', hchars', hposition', hpre'⟩ := hb
  intro h
  have hcut : onBoundary (byteLength pre) s.chars = true := hchars ▸ onBoundary_byteLength pre post
  have hcut' : onBoundary (byteLength pre') s.chars = true :=
    hchars' ▸ onBoundary_byteLength pre' post'
  have hlength := positionAt_injOn hcut hcut' (hposition ▸ hposition' ▸ h)
  have hsame : pre = pre' := by
    rw [← takeBytes_byteLength pre post, ← takeBytes_byteLength pre' post', ← hchars, ← hchars',
      hlength]
  exact hPQ pre hpre (hsame ▸ hpre')

/-- Symbols with names that one pattern finds are at different places. -/
theorem Symbol.Records.position_ne {p body : Pattern} {front back : List Pattern}
    {f : Char → Bool} {n n' : FoundName} (ha : a.Records s n) (hb : b.Records s n')
    (hp : p.Finds front body back f) (hn : n ∈ s.names p) (hn' : n' ∈ s.names p)
    (hlt : n.start < n'.start) : a.position ≠ b.position := by
  obtain ⟨⟨pre, post, hstands⟩, -⟩ := exists_standsIn hp hn
  obtain ⟨⟨pre', post', hstands'⟩, -⟩ := exists_standsIn hp hn'
  have hled : a.Led s fun pre => byteLength pre = n.start := ha.led hstands hstands.start
  have hled' : b.Led s fun pre => byteLength pre = n'.start := hb.led hstands' hstands'.start
  exact hled.position_ne hled' fun pre hpre hpre' => Nat.ne_of_lt hlt (hpre.symm.trans hpre')

end Symbols

end Concordance
