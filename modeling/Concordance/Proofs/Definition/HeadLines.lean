import Concordance.Proofs.Definition.Heads
import Concordance.Proofs.Definition.Names

/-!
The heads of definitions and the ends of lines.

Every pattern that finds names can be divided at the ends of lines: its matches start and end with what
can be seen. The head of a method in a script is the one that may start on blank lines above, and read
from its own line it is the same.

There is a statement `names_…` for every pattern.
-/

namespace Concordance

open Text Pattern

theorem Lead.visible {o : Option Char} (h : Lead o) : Visible o := by
  obtain ⟨a, ha, hblank, -⟩ := h
  exact ⟨a, ha, hblank⟩

namespace Pattern

section Visible

variable {p q body : Pattern} {front back : List Pattern} {f : Char → Bool}
  {P : Option Char → Prop}

theorem startsIn_of_readsOnly (hadvances : p.Advances) (hreads : p.ReadsOnly f) :
    p.StartsIn fun o => ∃ a, o = some a ∧ f a = true := by
  intro c d h
  obtain ⟨taken, htaken⟩ := exists_reads_of_mem_ends h
  obtain ⟨a, taken, rfl⟩ := List.exists_cons_of_ne_nil (hadvances.ne_nil h htaken)
  exact ⟨a, by rw [htaken.rest]; rfl, hreads h _ htaken a List.mem_cons_self⟩

theorem endsIn_of_readsOnly (hadvances : p.Advances) (hreads : p.ReadsOnly f) :
    p.EndsIn fun o => ∃ a, o = some a ∧ f a = true := by
  intro c d h
  obtain ⟨taken, htaken⟩ := exists_reads_of_mem_ends h
  have hne := hadvances.ne_nil h htaken
  refine ⟨taken.getLast hne, ?_, hreads h _ htaken _ (List.getLast_mem hne)⟩
  rw [htaken.before, List.getLast?_eq_getLast_of_ne_nil hne, Option.some_or]

/-- A match that holds nothing but what can be seen starts and ends with it. -/
theorem visible_of_readsOnly (hadvances : p.Advances) (hreads : p.ReadsOnly f)
    (hf : ∀ a, f a = true → isBlank a = false) : p.StartsIn Visible ∧ p.EndsIn Visible := by
  refine ⟨fun c d h => ?_, fun c d h => ?_⟩
  · obtain ⟨a, ha, hread⟩ := startsIn_of_readsOnly hadvances hreads h
    exact ⟨a, ha, hf a hread⟩
  · obtain ⟨a, ha, hread⟩ := endsIn_of_readsOnly hadvances hreads h
    exact ⟨a, ha, hf a hread⟩

theorem advances_literal {text : String} (h : text.toList ≠ []) : (literal text).Advances := by
  unfold literal
  obtain ⟨a, cs, hcs⟩ := List.exists_cons_of_ne_nil h
  rw [hcs]
  exact Advances.seq advances_one

/-- A text without white space. -/
def Solid (text : String) : Prop :=
  text.toList ≠ [] ∧ text.toList.all (fun c => !isBlank c) = true

instance (text : String) : Decidable (Solid text) :=
  inferInstanceAs (Decidable (_ ∧ _))

theorem visible_literal (text : String) (h : Solid text) :
    (literal text).StartsIn Visible ∧ (literal text).EndsIn Visible :=
  visible_of_readsOnly (advances_literal h.1) (readsOnly_literal h.2) fun a ha => by simpa using ha

theorem advances_keyword {texts : List String} (h : ∀ text ∈ texts, text.toList ≠ []) :
    (keyword texts).Advances := by
  intro c d hd
  obtain ⟨p, hp, hd⟩ := mem_ends_oneOf hd
  obtain ⟨text, htext, rfl⟩ := List.mem_map.mp hp
  exact advances_literal (h text htext) hd

theorem startsIn_keyword {texts : List String} (h : ∀ text ∈ texts, Solid text) :
    (keyword texts).StartsIn Visible := by
  intro c d hd
  obtain ⟨p, hp, hd⟩ := mem_ends_oneOf hd
  obtain ⟨text, htext, rfl⟩ := List.mem_map.mp hp
  exact (visible_literal text (h text htext)).1 hd

theorem StartsIn.many_seq {greedy : Bool} (hp : p.StartsIn P) (hq : q.StartsIn P) :
    (Pattern.seq (many greedy p) q).StartsIn P := by
  intro c d h
  obtain ⟨e, he, hd⟩ := mem_ends_seq.mp h
  have hcases : e = c ∨ P c.rest.head? := by
    refine forall_mem_ends_many (Q := fun e => e = c ∨ P c.rest.head?) ?_ (Or.inl rfl) e he
    rintro g g' (rfl | hg) hg'
    · exact Or.inr (hp hg')
    · exact Or.inr hg
  rcases hcases with rfl | hc
  · exact hq hd
  · exact hc

theorem StartsIn.optional_seq (hp : p.StartsIn P) (hq : q.StartsIn P) :
    (Pattern.seq (optional p) q).StartsIn P := by
  intro c d h
  obtain ⟨e, he, hd⟩ := mem_ends_seq.mp h
  rcases mem_ends_alt.mp he with he | he
  · exact hp he
  · obtain rfl := List.mem_singleton.mp he
    exact hq hd

theorem StartsIn.wordEdge_seq (hq : q.StartsIn P) : (Pattern.seq wordEdge q).StartsIn P := by
  intro c d h
  obtain ⟨e, he, hd⟩ := mem_ends_seq.mp h
  simp only [ends] at he
  split at he
  · obtain rfl := List.mem_singleton.mp he
    exact hq hd
  · cases he

theorem StartsIn.alt (hp : p.StartsIn P) (hq : q.StartsIn P) : (alt p q).StartsIn P :=
  fun _ _ h => (mem_ends_alt.mp h).elim (fun h => hp h) fun h => hq h

theorem StartsIn.group {n : Nat} (hp : p.StartsIn P) : (group n p).StartsIn P := by
  intro c d h
  obtain ⟨e, he, -⟩ := List.mem_map.mp h
  exact hp he

theorem EndsIn.alt (hp : p.EndsIn P) (hq : q.EndsIn P) : (alt p q).EndsIn P :=
  fun _ _ h => (mem_ends_alt.mp h).elim (fun h => hp h) fun h => hq h

theorem keeps_wordEdge : wordEdge.Keeps P := by
  intro c d h hc
  simp only [ends] at h
  split at h
  · obtain rfl := List.mem_singleton.mp h
    exact hc
  · cases h

theorem EndsIn.last (h : p.EndsIn P) : (all [p]).EndsIn P :=
  EndsIn.seq h keeps_empty

theorem Finds.advances_all (hp : p.Finds front body back f) : p.Advances := by
  intro c d h
  obtain ⟨e, he, g, hg, hd, -⟩ := hp.exists_cut h
  have hfront := offset_le_of_mem_ends he
  have hname := hp.advances hg
  have hback := offset_le_of_mem_ends hd
  dsimp only at hback
  omega

/-- A match ends with what follows the name. -/
theorem Finds.endsIn_back (hp : p.Finds front body back f) (h : (all back).EndsIn P) :
    p.EndsIn P := by
  intro c d hd
  obtain ⟨e, -, g, -, hd, -⟩ := hp.exists_cut hd
  exact h hd

/-- Where nothing follows the name, a match ends with it. -/
theorem Finds.endsIn_body (hp : p.Finds front body [] f) (h : body.EndsIn P) : p.EndsIn P := by
  intro c d hd
  obtain ⟨e, -, g, hg, hd, -⟩ := hp.exists_cut hd
  obtain rfl := List.mem_singleton.mp hd
  exact (h hg : P g.before)

end Visible

theorem endsIn_paren : (all [blanks, literal "("]).EndsIn Visible :=
  EndsIn.after (EndsIn.last (visible_literal "(" (by decide)).2)

theorem single_modifiers {texts : List String}
    (h : texts.Pairwise fun a b => ¬ a.toList <+: b.toList ∧ ¬ b.toList <+: a.toList) :
    (all [keyword texts, gap]).Single :=
  (single_keyword h).seq (single_gap.seq fun _ => Nat.le_refl 1)

section Resumes

variable {p q : Pattern} {c : Cursor} {lines rest : List Char}

/-- A match that starts with what can be seen does not start on a blank line. -/
theorem resumes_of_startsIn (h : p.StartsIn Visible) : p.Resumes := by
  intro c d lines rest hrest hblank hlast hd
  obtain ⟨a, ha, hvisible⟩ := h (List.mem_of_head? hd)
  obtain ⟨b, lines, rfl⟩ := List.exists_cons_of_ne_nil (l := lines) (by rintro rfl; cases hlast)
  rw [hrest, List.cons_append, List.head?_cons] at ha
  obtain rfl := Option.some.inj ha
  rw [hblank b List.mem_cons_self] at hvisible
  cases hvisible

/-- Behind the spaces and tabs of a blank line some more of it is left. -/
theorem dropWhile_indent (hlast : lines.getLast? = some '\n') (rest : List Char) :
    ∃ a lines', (lines ++ rest).dropWhile (fun c => c == ' ' || c == '\t') =
        a :: lines' ++ rest ∧ a :: lines' <:+ lines ∧ (a == ' ' || a == '\t') = false := by
  have hmem : '\n' ∈ lines := List.mem_of_getLast? hlast
  have hne : lines.dropWhile (fun c => c == ' ' || c == '\t') ≠ [] := by
    rw [Ne, List.dropWhile_eq_nil_iff]
    exact fun hall => absurd (hall '\n' hmem) (by decide)
  obtain ⟨a, lines', hcons⟩ := List.exists_cons_of_ne_nil hne
  refine ⟨a, lines', ?_, hcons ▸ List.dropWhile_suffix _, ?_⟩
  · rw [List.dropWhile_append, if_neg (by simpa using hne), hcons]
  · have := List.head?_dropWhile_not (fun c : Char => c == ' ' || c == '\t') lines
    rw [hcons] at this
    simpa using this

theorem ends_indent (c : Cursor) : indent.ends c =
    if c.before.all (· == '\n') then
      [Cursor.runEnd (fun a => a == ' ' || a == '\t') c.groups c.before c.offset c.rest]
    else [] := by
  show (lineStart.ends c).flatMap (run fun a => a == ' ' || a == '\t').ends = _
  simp only [ends]
  split <;> rfl

theorem ends_seq (p q : Pattern) (c : Cursor) : (seq p q).ends c = (p.ends c).flatMap q.ends :=
  rfl

theorem ends_indent_seq (q : Pattern) (c : Cursor) : (seq indent q).ends c =
    if c.before.all (· == '\n') then
      q.ends (Cursor.runEnd (fun a => a == ' ' || a == '\t') c.groups c.before c.offset c.rest)
    else [] := by
  rw [ends_seq, ends_indent]
  split <;> simp

theorem groups_runEnd (f : Char → Bool) (groups : List (Nat × Span)) (before : Option Char)
    (offset : Nat) (text : List Char) :
    (Cursor.runEnd f groups before offset text).groups = groups := by
  rw [Cursor.runEnd_eq]

/-- A match that starts with what can be seen on a line does not start on a blank line. -/
theorem resumes_indent (h : q.StartsIn Visible) : (seq indent q).Resumes := by
  intro c d lines rest hrest hblank hlast hd
  rw [ends_indent_seq] at hd
  split at hd
  · obtain ⟨a, ha, hvisible⟩ := h (List.mem_of_head? hd)
    obtain ⟨b, lines', hdrop, hsuffix, -⟩ := dropWhile_indent hlast rest
    rw [Cursor.runEnd_eq, hrest, hdrop] at ha
    obtain rfl := Option.some.inj ha
    rw [hblank b (hsuffix.subset List.mem_cons_self)] at hvisible
    cases hvisible
  · cases hd

/-- A run behind a run of fewer characters ends where the run alone does. -/
theorem runEnd_runEnd {f g : Char → Bool} (hfg : ∀ a, g a = true → f a = true)
    (groups : List (Nat × Span)) (before : Option Char) (offset : Nat) (text : List Char) :
    Cursor.runEnd f groups (Cursor.runEnd g groups before offset text).before
        (Cursor.runEnd g groups before offset text).offset
        (Cursor.runEnd g groups before offset text).rest =
      Cursor.runEnd f groups before offset text := by
  induction text generalizing before offset with
  | nil => rfl
  | cons a text ih =>
    by_cases ha : g a = true
    · rw [Cursor.runEnd, if_pos ha, Cursor.runEnd, if_pos (hfg a ha)]
      exact ih ..
    · rw [Cursor.runEnd, if_neg ha]

theorem runEnd_append {f : Char → Bool} {text : List Char} (h : ∀ a ∈ text, f a = true)
    (groups : List (Nat × Span)) (before : Option Char) (offset : Nat) (more : List Char) :
    Cursor.runEnd f groups before offset (text ++ more) =
      Cursor.runEnd f groups (text.getLast?.or before) (offset + byteLength text) more := by
  induction text generalizing before offset with
  | nil => rfl
  | cons a text ih =>
    obtain ⟨ha, hrest⟩ := List.forall_mem_cons.mp h
    rw [List.cons_append, Cursor.runEnd, if_pos ha, ih hrest, byteLength_cons, Nat.add_assoc,
      List.getLast?_cons]
    cases text.getLast? <;> rfl

theorem ends_many_of_nil {greedy : Bool} (h : p.ends c = []) : (many greedy p).ends c = [c] := by
  have hplaces : repeatEnds p.ends c.rest c [] = [c] := by
    cases hrest : c.rest with
    | nil => rfl
    | cons a rest => rw [repeatEnds, h]
  simp only [ends, hplaces]
  cases greedy <;> rfl

/-- A repetition that comes to an end after one time. -/
theorem ends_many_once {e : Cursor} {es : List Cursor} (h : p.ends c = e :: es)
    (hadvances : p.Advances) (hnone : p.ends e = []) : (many true p).ends c = [e, c] := by
  have hmem : e ∈ p.ends c := h ▸ List.mem_cons_self
  obtain ⟨taken, htaken⟩ := exists_reads_of_mem_ends hmem
  obtain ⟨a, taken, rfl⟩ := List.exists_cons_of_ne_nil (hadvances.ne_nil hmem htaken)
  have hlater : ∀ left, repeatEnds p.ends left e [c] = [e, c] := by
    intro left
    cases left with
    | nil => rfl
    | cons b left => rw [repeatEnds, hnone]
  show repeatEnds p.ends c.rest c [] = [e, c]
  rw [htaken.rest, List.cons_append, repeatEnds, h]
  exact (if_pos (hadvances hmem)).trans (hlater _)

end Resumes

end Pattern

namespace JavaScript

section MethodHead

variable {c d : Cursor}

/-- A word that may stand before the name of a method. -/
def modifier : Pattern :=
  all [keyword ["static", "async", "get", "set"], gap]

/-- The name of a method and the parenthesis behind it. -/
def namedCall : Pattern :=
  all [.group 1 memberName, blanks, literal "("]

theorem methodHead_eq : methodHead =
    .seq indent (.seq (.many true modifier)
      (.seq (optional (literal "*")) (.seq blanks namedCall))) :=
  rfl

theorem isBlank_of_isMemberChar {a : Char} (h : isMemberChar a = true) : isBlank a = false := by
  rw [Bool.eq_false_iff]
  intro hblank
  simp only [isMemberChar, isWordChar_of_isBlank hblank, Bool.false_or, Bool.or_eq_true,
    beq_iff_eq] at h
  rcases h with rfl | rfl
  · exact absurd hblank (by decide)
  · exact absurd hblank (by decide)

theorem dropWhile_append_of_all {f : Char → Bool} {taken rest : List Char}
    (h : ∀ a ∈ taken, f a = true) : (taken ++ rest).dropWhile f = rest.dropWhile f := by
  induction taken with
  | nil => rfl
  | cons a taken ih =>
    obtain ⟨ha, hrest⟩ := List.forall_mem_cons.mp h
    rw [List.cons_append, List.dropWhile_cons_of_pos ha, ih hrest]

/-- What stands behind a name and the white space that follows it. -/
def afterName (text : List Char) : List Char :=
  (text.dropWhile isMemberChar).dropWhile isBlank

/-- A name ends where a character follows that no name holds. -/
theorem afterName_append {taken : List Char} (htaken : ∀ a ∈ taken, isMemberChar a = true)
    {rest : List Char} (hrest : ∃ a, rest.head? = some a ∧ isMemberChar a = false) :
    afterName (taken ++ rest) = rest.dropWhile isBlank := by
  obtain ⟨a, ha, hmember⟩ := hrest
  obtain ⟨more, rfl⟩ := List.head?_eq_some_iff.mp ha
  rw [afterName, dropWhile_append_of_all htaken, List.dropWhile_cons_of_neg (by simp [hmember])]

theorem not_isMemberChar_of_isBlank {a : Char} (h : isBlank a = true) : isMemberChar a = false := by
  rw [Bool.eq_false_iff]
  intro hmember
  rw [isBlank_of_isMemberChar hmember] at h
  cases h

theorem readsOnly_keyword {f : Char → Bool} {texts : List String}
    (h : ∀ text ∈ texts, text.toList.all f = true) : (keyword texts).ReadsOnly f := by
  intro c d hd
  obtain ⟨p, hp, hd⟩ := mem_ends_oneOf hd
  obtain ⟨text, htext, rfl⟩ := List.mem_map.mp hp
  exact readsOnly_literal (h text htext) hd

theorem rest_of_mem_modifier (h : d ∈ modifier.ends c) : d.rest = afterName c.rest := by
  obtain ⟨e, he, h⟩ := mem_ends_seq.mp h
  obtain ⟨d', h, hd⟩ := mem_ends_seq.mp h
  obtain rfl := List.mem_singleton.mp hd
  obtain ⟨g, hg, hd⟩ := mem_ends_seq.mp h
  obtain rfl := List.mem_singleton.mp hd
  obtain ⟨taken, htaken⟩ := exists_reads_of_mem_ends he
  have hword := readsOnly_keyword (f := isMemberChar) (by decide) he taken htaken
  obtain ⟨b, hb, hnext⟩ := mem_ends_one hg
  have hrest : e.rest = b :: g.rest := (Cursor.reads_next hnext).rest
  rw [htaken.rest, afterName_append hword ⟨b, by rw [hrest]; rfl, not_isMemberChar_of_isBlank hb⟩,
    hrest, List.dropWhile_cons_of_pos hb, Cursor.runEnd_eq]

theorem head?_of_mem_namedCall (h : d ∈ namedCall.ends c) :
    (afterName c.rest).head? = some '(' := by
  obtain ⟨e, he, h⟩ := mem_ends_seq.mp h
  obtain ⟨e', he', rfl⟩ := List.mem_map.mp he
  obtain ⟨taken, htaken⟩ := exists_reads_of_mem_ends he'
  have hname := readsOnly_memberName he' taken htaken
  obtain ⟨g, hg, h⟩ := mem_ends_seq.mp h
  obtain rfl := List.mem_singleton.mp hg
  have hparen : (e'.rest.dropWhile isBlank).head? = some '(' := by
    obtain ⟨g', hg', -⟩ := mem_ends_seq.mp h
    have hstarts : (literal "(").StartsIn fun o => o = some '(' := by
      rw [literal_eq (a := '(') (by decide)]
      exact StartsIn.seq (startsIn_one fun a ha => by simpa using ha)
    have := hstarts hg'
    rwa [Cursor.runEnd_eq] at this
  have hhead : ∃ a, e'.rest.head? = some a ∧ isMemberChar a = false := by
    cases hrest : e'.rest with
    | nil => simp [hrest] at hparen
    | cons a more =>
      refine ⟨a, rfl, ?_⟩
      by_cases ha : isBlank a = true
      · exact not_isMemberChar_of_isBlank ha
      · rw [hrest, List.dropWhile_cons_of_neg ha] at hparen
        obtain rfl := Option.some.inj hparen
        decide
  rwa [htaken.rest, afterName_append hname hhead]

/-- What starts with a character of a name reads nothing at another one. -/
theorem ends_eq_nil_of_head? {p : Pattern} {a : Char}
    (hp : p.StartsIn fun o => ∃ b, o = some b ∧ isMemberChar b = true)
    (h : c.rest.head? = some a) (ha : isMemberChar a = false) : p.ends c = [] := by
  rw [List.eq_nil_iff_forall_not_mem]
  intro d hd
  obtain ⟨b, hb, hmember⟩ := hp hd
  rw [h] at hb
  rw [← Option.some.inj hb, ha] at hmember
  cases hmember

theorem startsIn_modifier : modifier.StartsIn fun o => ∃ a, o = some a ∧ isMemberChar a = true :=
  StartsIn.seq (startsIn_of_readsOnly (advances_keyword (by decide)) (readsOnly_keyword (by decide)))

theorem startsIn_namedCall :
    namedCall.StartsIn fun o => ∃ a, o = some a ∧ isMemberChar a = true :=
  StartsIn.seq (StartsIn.group (startsIn_of_readsOnly (Advances.after advances_identifier)
    readsOnly_memberName))

theorem ends_star (h : c.rest.head? ≠ some '*') : (literal "*").ends c = [] := by
  rw [List.eq_nil_iff_forall_not_mem]
  intro d hd
  have hstarts : (literal "*").StartsIn fun o => o = some '*' := by
    rw [literal_eq (a := '*') (by decide)]
    exact StartsIn.seq (startsIn_one fun a ha => by simpa using ha)
  exact h (hstarts hd)

/-- What may stand between the modifiers of a method and its name, and what follows. -/
theorem ends_unmodified (h : c.rest.head? ≠ some '*') :
    (Pattern.seq (optional (literal "*")) (.seq blanks namedCall)).ends c =
      namedCall.ends (Cursor.runEnd isBlank c.groups c.before c.offset c.rest) := by
  show (((literal "*").ends c ++ [c]).flatMap fun e =>
    ([Cursor.runEnd isBlank e.groups e.before e.offset e.rest] : List Cursor).flatMap
      namedCall.ends) = _
  rw [ends_star h]
  simp

theorem runEnd_of_not {f : Char → Bool} {a : Char} (h : c.rest.head? = some a) (ha : f a = false) :
    Cursor.runEnd f c.groups c.before c.offset c.rest = c := by
  obtain ⟨more, hrest⟩ := List.head?_eq_some_iff.mp h
  rw [hrest, Cursor.runEnd, if_neg (by simp [ha]), ← hrest]

/-- Before a parenthesis stands no name. -/
theorem ends_of_paren (h : c.rest.head? = some '(') : modifier.ends c = [] ∧
    (Pattern.seq (optional (literal "*")) (.seq blanks namedCall)).ends c = [] := by
  refine ⟨ends_eq_nil_of_head? startsIn_modifier h (by decide), ?_⟩
  rw [ends_unmodified (by rw [h]; decide), runEnd_of_not h (by decide)]
  exact ends_eq_nil_of_head? startsIn_namedCall h (by decide)

/-- Where a name and its parenthesis follow, no modifier does. -/
theorem ends_modified (h : namedCall.ends
      (Cursor.runEnd isBlank c.groups c.before c.offset c.rest) ≠ []) :
    (Pattern.seq (.many true modifier)
        (.seq (optional (literal "*")) (.seq blanks namedCall))).ends c =
      namedCall.ends (Cursor.runEnd isBlank c.groups c.before c.offset c.rest) := by
  obtain ⟨d, hd⟩ := List.exists_mem_of_ne_nil _ h
  have hstar : c.rest.head? ≠ some '*' := by
    intro hstar
    rw [runEnd_of_not hstar (by decide), ends_eq_nil_of_head? startsIn_namedCall hstar (by decide)]
      at h
    exact h rfl
  show ((Pattern.many true modifier).ends c).flatMap _ = _
  cases hmodifier : modifier.ends c with
  | nil =>
    rw [ends_many_of_nil hmodifier, List.flatMap_singleton, ends_unmodified hstar]
  | cons e es =>
    -- the modifier is itself the name
    have he : e ∈ modifier.ends c := hmodifier ▸ List.mem_cons_self
    obtain ⟨a, ha, hmember⟩ := startsIn_modifier he
    have hsame := runEnd_of_not (f := isBlank) ha (isBlank_of_isMemberChar hmember)
    have hparen : e.rest.head? = some '(' := by
      rw [rest_of_mem_modifier he]
      exact head?_of_mem_namedCall (hsame ▸ hd)
    obtain ⟨hmore, hnone⟩ := ends_of_paren hparen
    have hadvances : modifier.Advances := Advances.seq (advances_keyword (by decide))
    rw [ends_many_once hmodifier hadvances hmore, List.flatMap_cons, hnone, List.nil_append,
      List.flatMap_singleton, ends_unmodified hstar]

/-- Read from its own line, the head of a method is the same. -/
theorem resumes_methodHead : methodHead.Resumes := by
  intro c d lines rest hrest hblank hlast hd
  have hspace : ∀ a : Char, (a == ' ' || a == '\t') = true → isBlank a = true := by
    intro a ha
    obtain rfl | rfl : a = ' ' ∨ a = '\t' := by simpa using ha
    · decide
    · decide
  have hbehind : Cursor.runEnd isBlank c.groups c.before c.offset c.rest =
      Cursor.runEnd isBlank c.groups (some '\n') (c.offset + byteLength lines) rest := by
    rw [hrest, runEnd_append hblank, hlast, Option.some_or]
  rw [methodHead_eq, ends_indent_seq] at hd ⊢
  split at hd
  · -- on the blank line neither a modifier nor a star follows
    obtain ⟨a, lines', hdrop, hsuffix, -⟩ := dropWhile_indent hlast rest
    have ha : isBlank a = true := hblank a (hsuffix.subset List.mem_cons_self)
    have hhead : (Cursor.runEnd (fun a => a == ' ' || a == '\t') c.groups c.before c.offset
        c.rest).rest.head? = some a := by
      rw [Cursor.runEnd_eq, hrest, hdrop]
      rfl
    have hmodifier := ends_eq_nil_of_head? startsIn_modifier hhead (not_isMemberChar_of_isBlank ha)
    have hstar : some a ≠ some '*' := by
      rintro ⟨⟩
      exact absurd ha (by decide)
    rw [ends_seq, ends_many_of_nil hmodifier, List.flatMap_singleton,
      ends_unmodified (hhead ▸ hstar), groups_runEnd, runEnd_runEnd hspace, hbehind] at hd
    have hnonempty : namedCall.ends (Cursor.runEnd isBlank c.groups (some '\n')
        (c.offset + byteLength lines) rest) ≠ [] := by
      intro hnil
      rw [hnil] at hd
      cases hd
    have hline : Option.all (fun b => b == '\n') (some '\n') = true := rfl
    dsimp only
    rw [if_pos hline, ends_modified, groups_runEnd, runEnd_runEnd hspace]
    · exact hd
    · rwa [groups_runEnd, runEnd_runEnd hspace]
  · cases hd

end MethodHead

section Names

theorem visible_identifier : identifier.StartsIn Visible ∧ identifier.EndsIn Visible :=
  visible_of_readsOnly advances_identifier readsOnly_identifier fun _ => isBlank_of_isMemberChar

theorem startsIn_memberName : memberName.StartsIn Visible :=
  (visible_of_readsOnly (Advances.after advances_identifier) readsOnly_memberName
    fun _ => isBlank_of_isMemberChar).1

@[simp] theorem local_identifier : identifier.Local :=
  ⟨trivial, trivial⟩

@[simp] theorem local_memberName : memberName.Local :=
  ⟨⟨local_literal _, trivial⟩, local_identifier⟩

@[simp] theorem local_exported : exported.Local := by
  simp [exported]

@[simp] theorem local_async : async.Local := by
  simp [async]

theorem startsIn_exported_seq {q : Pattern} (hq : q.StartsIn Visible) :
    (Pattern.seq exported q).StartsIn Visible :=
  StartsIn.optional_seq (StartsIn.seq (visible_literal "export" (by decide)).1) hq

theorem names_classHead : classHead.Names
    [indent, exported, literal "class", gap] identifier [] isMemberChar where
  finds := finds_classHead
  divisible :=
    { isLocal := by simp [classHead]
      advances := finds_classHead.advances_all
      endsIn := finds_classHead.endsIn_body visible_identifier.2
      resumes := resumes_indent (startsIn_exported_seq
        (StartsIn.seq (visible_literal "class" (by decide)).1)) }
  seen := Or.inl visible_identifier.1

theorem names_methodHead : methodHead.Names
    [indent, .many true (all [keyword ["static", "async", "get", "set"], gap]),
      optional (literal "*"), blanks]
    memberName [blanks, literal "("] isMemberChar where
  finds := finds_methodHead
  divisible :=
    { isLocal := by simp [methodHead, single_modifiers]
      advances := finds_methodHead.advances_all
      endsIn := finds_methodHead.endsIn_back endsIn_paren
      resumes := resumes_methodHead }
  seen := Or.inl startsIn_memberName

theorem names_arrowField : arrowField.Names
    [indent, optional (.seq (literal "static") gap)] memberName
    [blanks, literal "=", blanks, async, .alt parameters identifier, blanks, literal "=>"]
    isMemberChar where
  finds := finds_arrowField
  divisible :=
    { isLocal := by simp [arrowField, parameters]
      advances := finds_arrowField.advances_all
      endsIn := finds_arrowField.endsIn_back (EndsIn.after (EndsIn.after (EndsIn.after (EndsIn.after
        (EndsIn.after (EndsIn.after (EndsIn.last (visible_literal "=>" (by decide)).2)))))))
      resumes := resumes_indent (StartsIn.optional_seq
        (StartsIn.seq (visible_literal "static" (by decide)).1)
        (StartsIn.seq (StartsIn.group startsIn_memberName))) }
  seen := Or.inl startsIn_memberName

theorem names_functionHead : functionHead.Names
    [indent, exported, async, literal "function", blanks, optional (literal "*"), blanks]
    identifier [blanks, literal "("] isMemberChar where
  finds := finds_functionHead
  divisible :=
    { isLocal := by simp [functionHead]
      advances := finds_functionHead.advances_all
      endsIn := finds_functionHead.endsIn_back endsIn_paren
      resumes := resumes_indent (startsIn_exported_seq (StartsIn.optional_seq
        (StartsIn.seq (visible_literal "async" (by decide)).1)
        (StartsIn.seq (visible_literal "function" (by decide)).1))) }
  seen := Or.inl visible_identifier.1

theorem names_assignedFunction : assignedFunction.Names
    [indent, optional (.seq (literal "export") gap), keyword ["const", "let", "var"], gap]
    identifier
    [blanks, literal "=", blanks, async,
      oneOf [.seq (literal "function") .wordEdge,
        all [parameters, blanks, literal "=>"],
        all [identifier, blanks, literal "=>"]]] isMemberChar where
  finds := finds_assignedFunction
  divisible :=
    { isLocal := by simp [assignedFunction, oneOf, parameters]
      advances := finds_assignedFunction.advances_all
      endsIn := by
        have harrow := EndsIn.last (visible_literal "=>" (by decide)).2
        refine finds_assignedFunction.endsIn_back (EndsIn.after (EndsIn.after (EndsIn.after
          (EndsIn.after (EndsIn.last (EndsIn.alt ?_ (EndsIn.alt (EndsIn.after (EndsIn.after harrow))
            (EndsIn.after (EndsIn.after harrow)))))))))
        exact EndsIn.seq (visible_literal "function" (by decide)).2 keeps_wordEdge
      resumes := resumes_indent (StartsIn.optional_seq
        (StartsIn.seq (visible_literal "export" (by decide)).1)
        (StartsIn.seq (startsIn_keyword (by decide)))) }
  seen := Or.inl visible_identifier.1

theorem names_firedEvent : firedEvent.Names
    [.alt (all [.wordEdge, literal "new", gap, optional (literal "Custom"), literal "Event"])
      (literal ".trigger"), blanks, literal "(", blanks, quote]
    (someOf fun c => c != '\'' && c != '"' && c != '`' && c != '\n') [quote] (· != '\n') := by
  have hquote : quote.EndsIn Lead := endsIn_one fun a ha => by
    obtain (rfl | rfl) | rfl : (a = '\'' ∨ a = '"') ∨ a = '`' := by simpa using ha
    all_goals exact ⟨_, rfl, by decide, by decide⟩
  refine ⟨finds_firedEvent, ⟨by simp [firedEvent, quote], finds_firedEvent.advances_all, ?_, ?_⟩, ?_⟩
  · exact finds_firedEvent.endsIn_back (EndsIn.last fun _ _ h => (hquote h).visible)
  · exact resumes_of_startsIn (StartsIn.seq (StartsIn.alt
      (StartsIn.wordEdge_seq (StartsIn.seq (visible_literal "new" (by decide)).1))
      (visible_literal ".trigger" (by decide)).1))
  · right
    refine ⟨EndsIn.after (EndsIn.after (EndsIn.after (EndsIn.after (EndsIn.last hquote)))),
      StartsIn.seq (startsIn_one fun a ha => ?_)⟩
    rintro ⟨⟩
    exact absurd ha (by decide)

end Names

end JavaScript

namespace Php

theorem isBlank_of_isWordChar {a : Char} (h : isWordChar a = true) : isBlank a = false := by
  rw [Bool.eq_false_iff]
  intro hblank
  rw [isWordChar_of_isBlank hblank] at h
  cases h

theorem visible_identifier : identifier.StartsIn Visible ∧ identifier.EndsIn Visible :=
  visible_of_readsOnly advances_identifier readsOnly_identifier fun _ => isBlank_of_isWordChar

@[simp] theorem local_identifier : identifier.Local :=
  ⟨trivial, trivial⟩

@[simp] theorem local_functionName : functionName.Local := by
  simp [functionName]

theorem startsIn_functionName : functionName.StartsIn Visible :=
  StartsIn.seq (visible_literal "function" (by decide)).1

theorem lead_quote : quote.EndsIn Lead := endsIn_one fun a ha => by
  obtain rfl | rfl : a = '\'' ∨ a = '"' := by simpa using ha
  all_goals exact ⟨_, rfl, by decide, by decide⟩

theorem endsIn_quote : (all [quote]).EndsIn Visible :=
  EndsIn.last fun _ _ h => (lead_quote h).visible

theorem names_classHead : classHead.Names
    [indent, .many true (all [keyword ["abstract", "final", "readonly"], gap]),
      keyword ["class", "interface", "trait", "enum"], gap]
    identifier [] isWordChar where
  finds := finds_classHead
  divisible :=
    { isLocal := by simp [classHead, single_modifiers]
      advances := finds_classHead.advances_all
      endsIn := finds_classHead.endsIn_body visible_identifier.2
      resumes := resumes_indent (StartsIn.many_seq (StartsIn.seq (startsIn_keyword (by decide)))
        (StartsIn.seq (startsIn_keyword (by decide)))) }
  seen := Or.inl visible_identifier.1

theorem names_methodHead : methodHead.Names
    [indent,
      .many true
        (all [keyword ["public", "protected", "private", "static", "abstract", "final"], gap]),
      literal "function", gap, optional (literal "&")]
    identifier [blanks, literal "("] isWordChar where
  finds := finds_methodHead
  divisible :=
    { isLocal := by simp [methodHead, single_modifiers]
      advances := finds_methodHead.advances_all
      endsIn := finds_methodHead.endsIn_back endsIn_paren
      resumes := resumes_indent (StartsIn.many_seq (StartsIn.seq (startsIn_keyword (by decide)))
        (StartsIn.seq startsIn_functionName)) }
  seen := Or.inl visible_identifier.1

theorem names_functionHead : functionHead.Names
    [indent, literal "function", gap, optional (literal "&")] identifier [blanks, literal "("]
    isWordChar where
  finds := finds_functionHead
  divisible :=
    { isLocal := by simp [functionHead]
      advances := finds_functionHead.advances_all
      endsIn := finds_functionHead.endsIn_back endsIn_paren
      resumes := resumes_indent startsIn_functionName }
  seen := Or.inl visible_identifier.1

theorem names_definedConstant : definedConstant.Names
    [.wordEdge, literal "define", blanks, literal "(", blanks, quote] identifier [quote]
    isWordChar where
  finds := finds_definedConstant
  divisible :=
    { isLocal := by simp [definedConstant, quote]
      advances := finds_definedConstant.advances_all
      endsIn := finds_definedConstant.endsIn_back endsIn_quote
      resumes := resumes_of_startsIn
        (StartsIn.wordEdge_seq (StartsIn.seq (visible_literal "define" (by decide)).1)) }
  seen := Or.inl visible_identifier.1

theorem names_declaredConstant : declaredConstant.Names
    [indent, literal "const", gap] identifier [blanks, literal "="] isWordChar where
  finds := finds_declaredConstant
  divisible :=
    { isLocal := by simp [declaredConstant]
      advances := finds_declaredConstant.advances_all
      endsIn := finds_declaredConstant.endsIn_back
        (EndsIn.after (EndsIn.last (visible_literal "=" (by decide)).2))
      resumes := resumes_indent (StartsIn.seq (visible_literal "const" (by decide)).1) }
  seen := Or.inl visible_identifier.1

theorem names_firedHook : firedHook.Names
    [.wordEdge, keyword ["do_action", "apply_filters"], blanks, literal "(", blanks, quote]
    unquoted [quote] (· != '\n') := by
  refine ⟨finds_firedHook, ⟨by simp [firedHook, quote, unquoted], finds_firedHook.advances_all,
    finds_firedHook.endsIn_back endsIn_quote, ?_⟩, ?_⟩
  · exact resumes_of_startsIn (StartsIn.wordEdge_seq (StartsIn.seq (startsIn_keyword (by decide))))
  · right
    refine ⟨EndsIn.after (EndsIn.after (EndsIn.after (EndsIn.after (EndsIn.after
      (EndsIn.last lead_quote))))), StartsIn.seq (startsIn_one fun a ha => ?_)⟩
    rintro ⟨⟩
    exact absurd ha (by decide)

end Php

namespace Stylesheet

theorem endsIn_colon : (all [blanks, literal ":"]).EndsIn Visible :=
  EndsIn.after (EndsIn.last (visible_literal ":" (by decide)).2)

theorem visible_customProperty :
    (Pattern.seq (literal "--") (someOf isPropertyChar)).StartsIn Visible :=
  StartsIn.seq (visible_literal "--" (by decide)).1

theorem visible_scriptVariable : (all [literal "$", .one fun c => c.isAlpha || c == '_',
    .run isPropertyChar]).StartsIn Visible :=
  StartsIn.seq (visible_literal "$" (by decide)).1

theorem names_customProperty : customProperty.Names []
    (.seq (literal "--") (someOf isPropertyChar)) [blanks, literal ":"] isVariableChar where
  finds := finds_customProperty
  divisible :=
    { isLocal := by simp [customProperty]
      advances := finds_customProperty.advances_all
      endsIn := finds_customProperty.endsIn_back endsIn_colon
      resumes := resumes_of_startsIn (StartsIn.seq (StartsIn.group visible_customProperty)) }
  seen := Or.inl visible_customProperty

theorem names_scriptVariable : scriptVariable.Names [indent]
    (all [literal "$", .one fun c => c.isAlpha || c == '_', .run isPropertyChar])
    [blanks, literal ":"] isVariableChar where
  finds := finds_scriptVariable
  divisible :=
    { isLocal := by simp [scriptVariable]
      advances := finds_scriptVariable.advances_all
      endsIn := finds_scriptVariable.endsIn_back endsIn_colon
      resumes := resumes_indent (StartsIn.seq (StartsIn.group visible_scriptVariable)) }
  seen := Or.inl visible_scriptVariable

end Stylesheet

end Concordance
