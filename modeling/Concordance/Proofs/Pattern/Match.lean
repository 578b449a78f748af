import Concordance.Pattern
import Concordance.Proofs.Text.Cut

/-!
What a match of a pattern reads.

Main statements: `exists_reads_of_mem_ends` (a match reads the characters between its two places),
`groups_of_mem_ends` (a pattern without groups remembers none), `start_of_mem_groups` (a group starts
where a reading leads) and `mem_searchAll` (every match of a search is a match that starts somewhere in
the text). What stands right before and right after a match is stated by `EndsIn`, `Keeps` and
`StartsIn`, with one lemma for each way to build a pattern.
-/

namespace Concordance

open Text

namespace Cursor

/-- Between the two places the characters are read. -/
structure Reads (c : Cursor) (taken : List Char) (d : Cursor) : Prop where
  rest : c.rest = taken ++ d.rest
  offset : d.offset = c.offset + byteLength taken
  before : d.before = taken.getLast?.or c.before

variable {c d e : Cursor} {taken more : List Char}

theorem Reads.refl (c : Cursor) : c.Reads [] c :=
  ⟨rfl, rfl, by simp⟩

theorem Reads.trans (h : c.Reads taken d) (h' : d.Reads more e) : c.Reads (taken ++ more) e := by
  refine ⟨?_, ?_, ?_⟩
  · rw [h.rest, h'.rest, List.append_assoc]
  · rw [h'.offset, h.offset, byteLength_append, Nat.add_assoc]
  · rw [h'.before, h.before, List.getLast?_append, Option.or_assoc]

/-- Reading on leaves fewer characters. -/
theorem Reads.length_lt (h : c.Reads taken d) (hlt : c.offset < d.offset) :
    d.rest.length < c.rest.length := by
  have hne : taken ≠ [] := by
    rintro rfl
    rw [h.offset, byteLength_nil, Nat.add_zero] at hlt
    exact Nat.lt_irrefl _ hlt
  have hpos := List.length_pos_iff.mpr hne
  rw [h.rest, List.length_append]
  omega

/-- What is read between two places is determined by them. -/
theorem Reads.unique {taken taken' : List Char} (h : c.Reads taken d) (h' : c.Reads taken' d) :
    taken = taken' :=
  List.append_cancel_right (h.rest.symm.trans h'.rest)

theorem reads_next {a : Char} (h : c.next? = some (a, d)) : c.Reads [a] d := by
  unfold next? at h
  split at h
  · cases h
  · next b bs hrest =>
    obtain ⟨rfl, rfl⟩ := Prod.mk.inj (Option.some.inj h)
    exact ⟨hrest, rfl, rfl⟩

/-- A run reads the characters of the class that come next. -/
theorem runEnd_eq (p : Char → Bool) (groups : List (Nat × Span)) (before : Option Char)
    (offset : Nat) (rest : List Char) :
    runEnd p groups before offset rest =
      ⟨(rest.takeWhile p).getLast?.or before, offset + byteLength (rest.takeWhile p),
        rest.dropWhile p, groups⟩ := by
  induction rest generalizing before offset with
  | nil => simp [runEnd]
  | cons a rest ih =>
    unfold runEnd
    split
    · next ha =>
      rw [ih, List.takeWhile_cons_of_pos ha, List.dropWhile_cons_of_pos ha, byteLength_cons,
        Nat.add_assoc, List.getLast?_cons]
      cases (rest.takeWhile p).getLast? <;> rfl
    · next ha =>
      rw [List.takeWhile_cons_of_neg ha, List.dropWhile_cons_of_neg ha]
      simp

theorem reads_runEnd (p : Char → Bool) (c : Cursor) :
    c.Reads (c.rest.takeWhile p) (runEnd p c.groups c.before c.offset c.rest) := by
  rw [runEnd_eq]
  exact ⟨List.takeWhile_append_dropWhile.symm, rfl, rfl⟩

end Cursor

/-- What holds at the start and is kept by every step holds at every place of a repetition. -/
theorem forall_mem_repeatEnds {step : Cursor → List Cursor} {Q : Cursor → Prop}
    (hstep : ∀ c d, Q c → d ∈ step c → Q d) {left : List Char} {c : Cursor} {passed : List Cursor}
    (hc : Q c) (hpassed : ∀ e ∈ passed, Q e) : ∀ e ∈ repeatEnds step left c passed, Q e := by
  induction left generalizing c passed with
  | nil => exact List.forall_mem_cons.mpr ⟨hc, hpassed⟩
  | cons a left ih =>
    unfold repeatEnds
    split
    · exact List.forall_mem_cons.mpr ⟨hc, hpassed⟩
    · next d ds hd =>
      split
      · exact ih (hstep c d hc (hd ▸ List.mem_cons_self)) (List.forall_mem_cons.mpr ⟨hc, hpassed⟩)
      · exact List.forall_mem_cons.mpr ⟨hc, hpassed⟩

namespace Pattern

variable {p q : Pattern} {c d : Cursor}

theorem mem_ends_seq : d ∈ (seq p q).ends c ↔ ∃ e ∈ p.ends c, d ∈ q.ends e :=
  List.mem_flatMap

theorem mem_ends_alt : d ∈ (alt p q).ends c ↔ d ∈ p.ends c ∨ d ∈ q.ends c :=
  List.mem_append

theorem forall_mem_ends_many {greedy : Bool} {Q : Cursor → Prop}
    (hstep : ∀ c d, Q c → d ∈ p.ends c → Q d) (hc : Q c) : ∀ d ∈ (many greedy p).ends c, Q d := by
  have hall : ∀ e ∈ repeatEnds p.ends c.rest c [], Q e := forall_mem_repeatEnds hstep hc (by simp)
  intro d hd
  cases greedy with
  | true => exact hall d hd
  | false => exact hall d (List.mem_reverse.mp hd)

theorem mem_ends_one {f : Char → Bool} (h : d ∈ (one f).ends c) :
    ∃ a, f a = true ∧ c.next? = some (a, d) := by
  simp only [ends] at h
  split at h
  · next a next hnext =>
    split at h
    · next ha =>
      obtain rfl := List.mem_singleton.mp h
      exact ⟨a, ha, hnext⟩
    · simp at h
  · simp at h

/-- A match reads the characters between its two places. -/
theorem exists_reads_of_mem_ends (h : d ∈ p.ends c) : ∃ taken, c.Reads taken d := by
  induction p generalizing c d with
  | empty =>
    obtain rfl := List.mem_singleton.mp h
    exact ⟨[], .refl d⟩
  | one f =>
    obtain ⟨a, -, hnext⟩ := mem_ends_one h
    exact ⟨[a], Cursor.reads_next hnext⟩
  | run f =>
    obtain rfl := List.mem_singleton.mp h
    exact ⟨_, Cursor.reads_runEnd f c⟩
  | seq p q ihp ihq =>
    obtain ⟨e, he, hd⟩ := mem_ends_seq.mp h
    obtain ⟨taken, htaken⟩ := ihp he
    obtain ⟨more, hmore⟩ := ihq hd
    exact ⟨taken ++ more, htaken.trans hmore⟩
  | alt p q ihp ihq => exact (mem_ends_alt.mp h).elim ihp ihq
  | many greedy p ih =>
    refine forall_mem_ends_many (Q := fun d => ∃ taken, c.Reads taken d) ?_ ⟨[], .refl c⟩ d h
    rintro e d ⟨taken, htaken⟩ hd
    obtain ⟨more, hmore⟩ := ih hd
    exact ⟨taken ++ more, htaken.trans hmore⟩
  | group n p ih =>
    obtain ⟨e, he, rfl⟩ := List.mem_map.mp h
    obtain ⟨taken, htaken⟩ := ih he
    exact ⟨taken, htaken.rest, htaken.offset, htaken.before⟩
  | lineStart | textStart | textEnd | wordEdge =>
    simp only [ends] at h
    split at h
    · obtain rfl := List.mem_singleton.mp h
      exact ⟨[], .refl d⟩
    · simp at h

/-- What two patterns read one after the other is what the first reads and then the second. -/
theorem exists_reads_of_mem_seq (h : d ∈ (seq p q).ends c) {taken : List Char}
    (htaken : c.Reads taken d) :
    ∃ e first more, e ∈ p.ends c ∧ d ∈ q.ends e ∧ c.Reads first e ∧ e.Reads more d ∧
      taken = first ++ more := by
  obtain ⟨e, he, hd⟩ := mem_ends_seq.mp h
  obtain ⟨first, hfirst⟩ := exists_reads_of_mem_ends he
  obtain ⟨more, hmore⟩ := exists_reads_of_mem_ends hd
  exact ⟨e, first, more, he, hd, hfirst, hmore, htaken.unique (hfirst.trans hmore)⟩

theorem reads_literal {text : String} (h : d ∈ (literal text).ends c) : c.Reads text.toList d := by
  unfold literal at h
  generalize text.toList = cs at h ⊢
  induction cs generalizing c with
  | nil =>
    obtain rfl := List.mem_singleton.mp h
    exact .refl d
  | cons a cs ih =>
    obtain ⟨e, he, hd⟩ := mem_ends_seq.mp h
    obtain ⟨b, hb, hnext⟩ := mem_ends_one he
    obtain rfl : b = a := by simpa using hb
    exact (Cursor.reads_next hnext).trans (ih hd)

theorem mem_ends_oneOf {ps : List Pattern} (h : d ∈ (oneOf ps).ends c) : ∃ p ∈ ps, d ∈ p.ends c := by
  induction ps using oneOf.induct with
  | case1 =>
    obtain ⟨a, ha, -⟩ := mem_ends_one h
    cases ha
  | case2 p => exact ⟨p, List.mem_cons_self, h⟩
  | case3 p ps _ ih =>
    rw [oneOf] at h
    · rcases mem_ends_alt.mp h with h | h
      · exact ⟨p, List.mem_cons_self, h⟩
      · obtain ⟨q, hq, hd⟩ := ih h
        exact ⟨q, List.mem_cons_of_mem p hq, hd⟩
    · assumption

theorem reads_keyword {texts : List String} (h : d ∈ (keyword texts).ends c) :
    ∃ text ∈ texts, c.Reads text.toList d := by
  obtain ⟨p, hp, hd⟩ := mem_ends_oneOf h
  obtain ⟨text, htext, rfl⟩ := List.mem_map.mp hp
  exact ⟨text, htext, reads_literal hd⟩

/-- The pattern has no groups. -/
def groupless : Pattern → Bool
  | .seq p q => p.groupless && q.groupless
  | .alt p q => p.groupless && q.groupless
  | .many _ p => p.groupless
  | .group _ _ => false
  | _ => true

/-- A pattern without groups remembers none. -/
theorem groups_of_mem_ends (hp : p.groupless = true) (h : d ∈ p.ends c) : d.groups = c.groups := by
  induction p generalizing c d with
  | empty =>
    obtain rfl := List.mem_singleton.mp h
    rfl
  | one f =>
    obtain ⟨a, -, hnext⟩ := mem_ends_one h
    unfold Cursor.next? at hnext
    split at hnext
    · cases hnext
    · obtain ⟨-, rfl⟩ := Prod.mk.inj (Option.some.inj hnext)
      rfl
  | run f =>
    obtain rfl := List.mem_singleton.mp h
    rw [Cursor.runEnd_eq]
  | seq p q ihp ihq =>
    obtain ⟨hp, hq⟩ := Bool.and_eq_true_iff.mp hp
    obtain ⟨e, he, hd⟩ := mem_ends_seq.mp h
    rw [ihq hq hd, ihp hp he]
  | alt p q ihp ihq =>
    obtain ⟨hp, hq⟩ := Bool.and_eq_true_iff.mp hp
    exact (mem_ends_alt.mp h).elim (ihp hp) (ihq hq)
  | many greedy p ih =>
    refine forall_mem_ends_many (Q := fun d => d.groups = c.groups) ?_ rfl d h
    intro e d he hd
    rw [ih hp hd, he]
  | group n p => cases hp
  | lineStart | textStart | textEnd | wordEdge =>
    simp only [ends] at h
    split at h
    · obtain rfl := List.mem_singleton.mp h
      rfl
    · simp at h

/-- The pattern remembers nothing under the number. -/
def forgets (n : Nat) : Pattern → Bool
  | .seq p q => p.forgets n && q.forgets n
  | .alt p q => p.forgets n && q.forgets n
  | .many _ p => p.forgets n
  | .group m p => n != m && p.forgets n
  | _ => true

/-- What is remembered under a number stays where a pattern remembers nothing under it. -/
theorem lookup_of_mem_ends {n : Nat} {c d : Cursor} (hp : p.forgets n = true) (h : d ∈ p.ends c) :
    d.groups.lookup n = c.groups.lookup n := by
  induction p generalizing c d with
  | seq p q ihp ihq =>
    obtain ⟨hfirst, hsecond⟩ := Bool.and_eq_true_iff.mp hp
    obtain ⟨e, he, hd⟩ := mem_ends_seq.mp h
    rw [ihq hsecond hd, ihp hfirst he]
  | alt p q ihp ihq =>
    obtain ⟨hfirst, hsecond⟩ := Bool.and_eq_true_iff.mp hp
    exact (mem_ends_alt.mp h).elim (ihp hfirst) (ihq hsecond)
  | many greedy p ih =>
    exact forall_mem_ends_many (Q := fun e => e.groups.lookup n = c.groups.lookup n)
      (fun e g he hg => (ih hp hg).trans he) rfl d h
  | group m p ih =>
    obtain ⟨hne, hp⟩ := Bool.and_eq_true_iff.mp hp
    obtain ⟨e, he, rfl⟩ := List.mem_map.mp h
    rw [List.lookup_cons, beq_false_of_ne (bne_iff_ne.mp hne)]
    exact ih hp he
  | empty | one | run | lineStart | textStart | textEnd | wordEdge =>
    rw [groups_of_mem_ends rfl h]

/-- A group that is remembered on the way starts at a place that is reached by reading. -/
theorem start_of_mem_groups (h : d ∈ p.ends c) :
    ∀ k ∈ d.groups, k ∈ c.groups ∨ ∃ taken e, c.Reads taken e ∧ k.2.start = e.offset := by
  induction p generalizing c d with
  | seq p q ihp ihq =>
    obtain ⟨e, he, hd⟩ := mem_ends_seq.mp h
    obtain ⟨taken, htaken⟩ := exists_reads_of_mem_ends he
    intro k hk
    rcases ihq hd k hk with hk | ⟨more, g, hmore, hstart⟩
    · exact ihp he k hk
    · exact Or.inr ⟨taken ++ more, g, htaken.trans hmore, hstart⟩
  | alt p q ihp ihq => exact (mem_ends_alt.mp h).elim ihp ihq
  | many greedy p ih =>
    have hall := forall_mem_ends_many (Q := fun d => (∃ taken, c.Reads taken d) ∧
      ∀ k ∈ d.groups, k ∈ c.groups ∨ ∃ taken e, c.Reads taken e ∧ k.2.start = e.offset)
      (fun e d he hd => ?_) ⟨⟨[], .refl c⟩, fun _ => Or.inl⟩ d h
    · exact hall.2
    · obtain ⟨⟨taken, htaken⟩, hgroups⟩ := he
      obtain ⟨more, hmore⟩ := exists_reads_of_mem_ends hd
      refine ⟨⟨taken ++ more, htaken.trans hmore⟩, fun k hk => ?_⟩
      rcases ih hd k hk with hk | ⟨more, g, hmore, hstart⟩
      · exact hgroups k hk
      · exact Or.inr ⟨taken ++ more, g, htaken.trans hmore, hstart⟩
  | group n p ih =>
    obtain ⟨e, he, rfl⟩ := List.mem_map.mp h
    intro k hk
    rcases List.mem_cons.mp hk with rfl | hk
    · exact Or.inr ⟨[], c, .refl c, rfl⟩
    · exact ih he k hk
  | empty | one | run | lineStart | textStart | textEnd | wordEdge =>
    rw [groups_of_mem_ends rfl h]
    exact fun _ => Or.inl

section Sides

variable {P : Option Char → Prop} {f : Char → Bool}

/-- Before the end of a match stands what the property allows. -/
def EndsIn (P : Option Char → Prop) (p : Pattern) : Prop :=
  ∀ ⦃c d : Cursor⦄, d ∈ p.ends c → P d.before

/-- If the property allows what stands before a match, it allows what stands before its end. -/
def Keeps (P : Option Char → Prop) (p : Pattern) : Prop :=
  ∀ ⦃c d : Cursor⦄, d ∈ p.ends c → P c.before → P d.before

/-- A match starts at what the property allows. -/
def StartsIn (P : Option Char → Prop) (p : Pattern) : Prop :=
  ∀ ⦃c d : Cursor⦄, d ∈ p.ends c → P c.rest.head?

theorem EndsIn.keeps (h : p.EndsIn P) : p.Keeps P :=
  fun _ _ hd _ => h hd

theorem EndsIn.after (hq : q.EndsIn P) : (seq p q).EndsIn P := by
  intro c d h
  obtain ⟨e, -, hd⟩ := mem_ends_seq.mp h
  exact hq hd

theorem EndsIn.seq (hp : p.EndsIn P) (hq : q.Keeps P) : (seq p q).EndsIn P := by
  intro c d h
  obtain ⟨e, he, hd⟩ := mem_ends_seq.mp h
  exact hq hd (hp he)

theorem Keeps.seq (hp : p.Keeps P) (hq : q.Keeps P) : (seq p q).Keeps P := by
  intro c d h hc
  obtain ⟨e, he, hd⟩ := mem_ends_seq.mp h
  exact hq hd (hp he hc)

theorem keeps_empty : empty.Keeps P := by
  intro c d h hc
  obtain rfl := List.mem_singleton.mp h
  exact hc

theorem Keeps.optional (hp : p.Keeps P) : (optional p).Keeps P := by
  intro c d h
  exact (mem_ends_alt.mp h).elim (fun h => hp h) (fun h => keeps_empty h)

theorem Keeps.many (hp : p.Keeps P) {greedy : Bool} : (many greedy p).Keeps P :=
  fun _ d h hc => forall_mem_ends_many (fun _ _ he hd => hp hd he) hc d h

theorem endsIn_one (hf : ∀ a, f a = true → P (some a)) : (one f).EndsIn P := by
  intro c d h
  obtain ⟨a, ha, hnext⟩ := mem_ends_one h
  rw [(Cursor.reads_next hnext).before]
  exact hf a ha

theorem keeps_run (hf : ∀ a, f a = true → P (some a)) : (run f).Keeps P := by
  intro c d h hc
  obtain rfl := List.mem_singleton.mp h
  rw [(Cursor.reads_runEnd f c).before]
  cases hlast : (c.rest.takeWhile f).getLast? with
  | none => exact hc
  | some a =>
    have hmem := List.mem_of_getLast? hlast
    exact hf a (List.all_eq_true.mp List.all_takeWhile a hmem)

theorem endsIn_lineStart (hnone : P none) (hline : P (some '\n')) : lineStart.EndsIn P := by
  intro c d h
  simp only [ends] at h
  split at h
  · next hall =>
    obtain rfl := List.mem_singleton.mp h
    cases hbefore : d.before with
    | none => exact hnone
    | some a =>
      obtain rfl : a = '\n' := by simpa [hbefore] using hall
      exact hline
  · simp at h

theorem StartsIn.seq (hp : p.StartsIn P) : (seq p q).StartsIn P := by
  intro c d h
  obtain ⟨e, he, -⟩ := mem_ends_seq.mp h
  exact hp he

theorem startsIn_one (hf : ∀ a, f a = true → P (some a)) : (one f).StartsIn P := by
  intro c d h
  obtain ⟨a, ha, hnext⟩ := mem_ends_one h
  rw [(Cursor.reads_next hnext).rest]
  exact hf a ha

/-- A run may be empty, and then the match starts with what follows it. -/
theorem StartsIn.run_seq (hf : ∀ a, f a = true → P (some a)) (hq : q.StartsIn P) :
    (Pattern.seq (run f) q).StartsIn P := by
  intro c d h
  obtain ⟨e, he, hd⟩ := mem_ends_seq.mp h
  obtain rfl := List.mem_singleton.mp he
  have hafter := hq hd
  rw [Cursor.runEnd_eq] at hafter
  cases hrest : c.rest with
  | nil => simpa [hrest] using hafter
  | cons a rest =>
    by_cases ha : f a = true
    · exact hf a ha
    · simpa [hrest, ha] using hafter

end Sides

section Reading

variable {f g : Char → Bool}

/-- A match reads at least one character. -/
def Advances (p : Pattern) : Prop :=
  ∀ ⦃c d : Cursor⦄, d ∈ p.ends c → c.offset < d.offset

/-- A match reads only characters of the class. -/
def ReadsOnly (f : Char → Bool) (p : Pattern) : Prop :=
  ∀ ⦃c d : Cursor⦄, d ∈ p.ends c → ∀ taken, c.Reads taken d → ∀ a ∈ taken, f a = true

theorem offset_le_of_mem_ends (h : d ∈ p.ends c) : c.offset ≤ d.offset := by
  obtain ⟨taken, htaken⟩ := exists_reads_of_mem_ends h
  rw [htaken.offset]
  exact Nat.le_add_right _ _

theorem advances_one : (one f).Advances := by
  intro c d h
  obtain ⟨a, -, hnext⟩ := mem_ends_one h
  rw [(Cursor.reads_next hnext).offset, byteLength_cons, byteLength_nil, Nat.add_zero]
  exact Nat.lt_add_of_pos_right a.utf8Size_pos

theorem Advances.seq (hp : p.Advances) : (seq p q).Advances := by
  intro c d h
  obtain ⟨e, he, hd⟩ := mem_ends_seq.mp h
  exact Nat.lt_of_lt_of_le (hp he) (offset_le_of_mem_ends hd)

theorem Advances.after (hq : q.Advances) : (Pattern.seq p q).Advances := by
  intro c d h
  obtain ⟨e, he, hd⟩ := mem_ends_seq.mp h
  exact Nat.lt_of_le_of_lt (offset_le_of_mem_ends he) (hq hd)

theorem Advances.ne_nil (hp : p.Advances) {taken : List Char} (h : d ∈ p.ends c)
    (htaken : c.Reads taken d) : taken ≠ [] := by
  rintro rfl
  have hlt := hp h
  rw [htaken.offset, byteLength_nil, Nat.add_zero] at hlt
  exact Nat.lt_irrefl _ hlt

/-- A pattern that ends where it starts reads nothing. -/
theorem readsOnly_of_stays (hp : ∀ ⦃c d⦄, d ∈ p.ends c → d = c) : p.ReadsOnly f := by
  intro c d h taken htaken
  obtain rfl := hp h
  obtain rfl := htaken.unique (.refl d)
  simp

theorem readsOnly_empty : empty.ReadsOnly f :=
  readsOnly_of_stays fun _ _ => List.mem_singleton.mp

theorem readsOnly_one (hg : ∀ a, g a = true → f a = true) : (one g).ReadsOnly f := by
  intro c d h taken htaken
  obtain ⟨a, ha, hnext⟩ := mem_ends_one h
  obtain rfl := htaken.unique (Cursor.reads_next hnext)
  simpa using hg a ha

theorem readsOnly_run (hg : ∀ a, g a = true → f a = true) : (run g).ReadsOnly f := by
  intro c d h taken htaken
  obtain rfl := List.mem_singleton.mp h
  obtain rfl := htaken.unique (Cursor.reads_runEnd g c)
  exact fun a ha => hg a (List.all_eq_true.mp List.all_takeWhile a ha)

theorem ReadsOnly.seq (hp : p.ReadsOnly f) (hq : q.ReadsOnly f) : (seq p q).ReadsOnly f := by
  intro c d h taken htaken
  obtain ⟨e, first, more, he, hd, hfirst, hmore, rfl⟩ := exists_reads_of_mem_seq h htaken
  intro a ha
  exact (List.mem_append.mp ha).elim (hp he _ hfirst a) (hq hd _ hmore a)

theorem ReadsOnly.optional (hp : p.ReadsOnly f) : (optional p).ReadsOnly f := by
  intro c d h
  exact (mem_ends_alt.mp h).elim (fun h => hp h) (fun h => readsOnly_empty h)

theorem readsOnly_literal {text : String} (h : text.toList.all f = true) :
    (literal text).ReadsOnly f := by
  unfold literal
  generalize text.toList = cs at h
  induction cs with
  | nil => exact readsOnly_empty
  | cons a cs ih =>
    obtain ⟨ha, hcs⟩ := Bool.and_eq_true_iff.mp h
    refine ReadsOnly.seq (readsOnly_one fun b hb => ?_) (ih hcs)
    obtain rfl : b = a := by simpa using hb
    exact ha

theorem ReadsOnly.many (hp : p.ReadsOnly f) {greedy : Bool} : (many greedy p).ReadsOnly f := by
  intro c d h taken htaken
  have hread : ∃ taken, c.Reads taken d ∧ ∀ a ∈ taken, f a = true := by
    refine forall_mem_ends_many (Q := fun e => ∃ taken, c.Reads taken e ∧ ∀ a ∈ taken, f a = true)
      ?_ ⟨[], .refl c, by simp⟩ d h
    rintro e g ⟨taken, htaken, hall⟩ hg
    obtain ⟨more, hmore⟩ := exists_reads_of_mem_ends hg
    exact ⟨taken ++ more, htaken.trans hmore,
      List.forall_mem_append.mpr ⟨hall, hp hg more hmore⟩⟩
  obtain ⟨taken', htaken', hall⟩ := hread
  rwa [htaken.unique htaken']

theorem readsOnly_textEnd : textEnd.ReadsOnly f :=
  readsOnly_of_stays fun _ _ h => by simpa using (List.mem_ite_nil_right.mp h).2

theorem readsOnly_wordEdge : wordEdge.ReadsOnly f :=
  readsOnly_of_stays fun _ _ h => by simpa using (List.mem_ite_nil_right.mp h).2

theorem readsOnly_oneOf {ps : List Pattern} (h : ∀ p ∈ ps, p.ReadsOnly f) :
    (oneOf ps).ReadsOnly f := by
  intro c d hd
  obtain ⟨p, hp, hd⟩ := mem_ends_oneOf hd
  exact h p hp hd

theorem readsOnly_keyword {texts : List String} (h : ∀ text ∈ texts, text.toList.all f = true) :
    (keyword texts).ReadsOnly f :=
  readsOnly_oneOf fun p hp => by
    obtain ⟨text, htext, rfl⟩ := List.mem_map.mp hp
    exact readsOnly_literal (h text htext)

theorem readsOnly_all {ps : List Pattern} (h : ∀ p ∈ ps, p.ReadsOnly f) : (all ps).ReadsOnly f := by
  induction ps with
  | nil => exact readsOnly_empty
  | cons p ps ih =>
    exact (h p List.mem_cons_self).seq (ih fun q hq => h q (List.mem_cons_of_mem p hq))

theorem rest_of_mem_textEnd {c d : Cursor} (h : d ∈ textEnd.ends c) : d.rest = [] := by
  simp only [ends] at h
  split at h
  · next hrest =>
    obtain rfl := List.mem_singleton.mp h
    exact List.isEmpty_iff.mp hrest
  · cases h

end Reading

section Named

variable {front back : List Pattern} {body : Pattern}

theorem mem_ends_all_append {ps qs : List Pattern} :
    d ∈ (all (ps ++ qs)).ends c ↔ ∃ e ∈ (all ps).ends c, d ∈ (all qs).ends e := by
  induction ps generalizing c with
  | nil => simp [all, ends]
  | cons p ps ih =>
    have hcons : ∀ rs, all (p :: rs) = seq p (all rs) := fun _ => rfl
    rw [List.cons_append, hcons, hcons, mem_ends_seq]
    constructor
    · rintro ⟨e, he, hd⟩
      obtain ⟨g, hg, hd⟩ := ih.mp hd
      exact ⟨g, mem_ends_seq.mpr ⟨e, he, hg⟩, hd⟩
    · rintro ⟨g, hg, hd⟩
      obtain ⟨e, he, hg⟩ := mem_ends_seq.mp hg
      exact ⟨e, he, ih.mpr ⟨g, hg, hd⟩⟩

/-- A match of patterns in a row, the last of which asks for the end, reads up to the end. -/
theorem rest_of_mem_all {ps : List Pattern} (hlast : ps.getLast? = some .textEnd) {c d : Cursor}
    (h : d ∈ (all ps).ends c) : d.rest = [] := by
  obtain ⟨front, rfl⟩ := List.getLast?_eq_some_iff.mp hlast
  obtain ⟨e, -, hd⟩ := mem_ends_all_append.mp h
  obtain ⟨g, hg, hd⟩ := mem_ends_seq.mp hd
  obtain rfl := List.mem_singleton.mp hd
  exact rest_of_mem_textEnd hg

/-- A match of the pattern is one of patterns in a row; the first group among them, the only one,
reads a name: one character or more, all of the class. -/
structure Finds (p : Pattern) (front : List Pattern) (body : Pattern) (back : List Pattern)
    (f : Char → Bool) : Prop where
  cut : ∀ ⦃c d : Cursor⦄, d ∈ p.ends c → d ∈ (all (front ++ group 1 body :: back)).ends c
  groupless : (all front).groupless = true ∧ body.groupless = true ∧ (all back).groupless = true
  advances : body.Advances
  readsOnly : body.ReadsOnly f

/-- A match is cut at the ends of the name. -/
theorem Finds.exists_cut {f : Char → Bool} (hp : p.Finds front body back f) (h : d ∈ p.ends c) :
    ∃ e ∈ (all front).ends c, ∃ g ∈ body.ends e,
      d ∈ (all back).ends { g with groups := (1, ⟨e.offset, g.offset⟩) :: g.groups } ∧
        d.groups = (1, ⟨e.offset, g.offset⟩) :: c.groups := by
  obtain ⟨hfront, hbody, hback⟩ := hp.groupless
  obtain ⟨e, he, hd⟩ := mem_ends_all_append.mp (hp.cut h)
  obtain ⟨g', hg', hd⟩ := mem_ends_seq.mp hd
  obtain ⟨g, hg, rfl⟩ := List.mem_map.mp hg'
  refine ⟨e, he, g, hg, hd, ?_⟩
  rw [groups_of_mem_ends hback hd, groups_of_mem_ends hbody hg, groups_of_mem_ends hfront he]

end Named

section Search

theorem mem_groups_of_group? {m : Match} {n : Nat} {g : Span} (h : m.group? n = some g) :
    (n, g) ∈ m.groups := by
  obtain ⟨front, back, hgroups, -⟩ := List.lookup_eq_some_iff.mp h
  simp [hgroups]

theorem searchFrom?_spec {before : Option Char} {offset : Nat} {text : List Char} {m : Match}
    (h : p.searchFrom? before offset text = some (m, d)) :
    ∃ passed rest, text = passed ++ rest ∧
      d ∈ p.ends ⟨passed.getLast?.or before, offset + byteLength passed, rest, []⟩ ∧
      m = ⟨⟨offset + byteLength passed, d.offset⟩, d.groups⟩ := by
  induction text generalizing before offset with
  | nil =>
    simp only [searchFrom?] at h
    split at h
    · next e he =>
      obtain ⟨rfl, rfl⟩ := Prod.mk.inj (Option.some.inj h)
      exact ⟨[], [], rfl, List.mem_of_head? he, rfl⟩
    · cases h
  | cons a rest ih =>
    simp only [searchFrom?] at h
    split at h
    · next e he =>
      obtain ⟨rfl, rfl⟩ := Prod.mk.inj (Option.some.inj h)
      exact ⟨[], a :: rest, rfl, List.mem_of_head? he, rfl⟩
    · obtain ⟨passed, rest', rfl, hd, rfl⟩ := ih h
      refine ⟨a :: passed, rest', rfl, ?_, ?_⟩
      · rw [byteLength_cons, ← Nat.add_assoc, List.getLast?_cons]
        cases hlast : passed.getLast? <;> simpa [hlast] using hd
      · rw [byteLength_cons, Nat.add_assoc]

theorem searchFrom?_isSome_iff {before : Option Char} {offset : Nat} {text : List Char} :
    (p.searchFrom? before offset text).isSome = true ↔ ∃ passed rest, text = passed ++ rest ∧
      p.ends ⟨passed.getLast?.or before, offset + byteLength passed, rest, []⟩ ≠ [] := by
  constructor
  · intro h
    obtain ⟨⟨m, d⟩, hfound⟩ := Option.isSome_iff_exists.mp h
    obtain ⟨passed, rest, htext, hd, -⟩ := searchFrom?_spec hfound
    exact ⟨passed, rest, htext, List.ne_nil_of_mem hd⟩
  · rintro ⟨passed, rest, rfl, hne⟩
    induction passed generalizing before offset with
    | nil =>
      obtain ⟨d, ds, hends⟩ := List.exists_cons_of_ne_nil hne
      cases rest with
      | nil => simp_all [searchFrom?]
      | cons a rest => simp_all [searchFrom?]
    | cons a passed ih =>
      have hlater := @ih (some a) (offset + a.utf8Size) (by
        rw [byteLength_cons, ← Nat.add_assoc, List.getLast?_cons] at hne
        cases hlast : passed.getLast? <;> simpa [hlast] using hne)
      simp only [List.cons_append, searchFrom?]
      split
      · rfl
      · exact hlater

/-- A pattern matches in a text exactly if a match starts somewhere in it. -/
theorem matchesIn_iff {text : List Char} :
    p.matchesIn text = true ↔ ∃ passed rest, text = passed ++ rest ∧
      p.ends ⟨passed.getLast?, byteLength passed, rest, []⟩ ≠ [] := by
  rw [matchesIn, search?, Option.isSome_map, searchFrom?_isSome_iff]
  simp only [Option.or_none, Nat.zero_add]

theorem mem_searchAllFrom {fuel : Nat} {before : Option Char} {offset : Nat} {text : List Char}
    {m : Match} (h : m ∈ p.searchAllFrom fuel before offset text) :
    ∃ passed rest d, text = passed ++ rest ∧
      d ∈ p.ends ⟨passed.getLast?.or before, offset + byteLength passed, rest, []⟩ ∧
      m = ⟨⟨offset + byteLength passed, d.offset⟩, d.groups⟩ := by
  induction fuel generalizing before offset text with
  | zero => simp [searchAllFrom] at h
  | succ fuel ih =>
    -- a later match is found from a place that was reached by reading
    have hlater : ∀ {taken : List Char} {e : Cursor},
        Cursor.Reads ⟨before, offset, text, []⟩ taken e →
        m ∈ p.searchAllFrom fuel e.before e.offset e.rest →
        ∃ passed rest d, text = passed ++ rest ∧
          d ∈ p.ends ⟨passed.getLast?.or before, offset + byteLength passed, rest, []⟩ ∧
          m = ⟨⟨offset + byteLength passed, d.offset⟩, d.groups⟩ := by
      intro taken e hreads hm
      obtain ⟨passed, rest, d, hrest, hd, rfl⟩ := ih hm
      refine ⟨taken ++ passed, rest, d, ?_, ?_, ?_⟩
      · rw [List.append_assoc, ← hrest]
        exact hreads.rest
      · rw [hreads.before, hreads.offset] at hd
        rwa [List.getLast?_append, Option.or_assoc, byteLength_append, ← Nat.add_assoc]
      · rw [hreads.offset, byteLength_append, Nat.add_assoc]
    simp only [searchAllFrom] at h
    split at h
    · simp at h
    · next first d hfirst =>
      obtain ⟨passed, rest, rfl, hd, rfl⟩ := searchFrom?_spec hfirst
      obtain ⟨taken, htaken⟩ := exists_reads_of_mem_ends hd
      have hpassed : Cursor.Reads ⟨before, offset, passed ++ rest, []⟩ passed
          ⟨passed.getLast?.or before, offset + byteLength passed, rest, []⟩ := ⟨rfl, rfl, rfl⟩
      split at h
      · rcases List.mem_cons.mp h with rfl | h
        · exact ⟨passed, rest, d, rfl, hd, rfl⟩
        · exact hlater (hpassed.trans htaken) h
      · split at h
        · obtain rfl := List.mem_singleton.mp h
          exact ⟨passed, rest, d, rfl, hd, rfl⟩
        · next a e hnext =>
          rcases List.mem_cons.mp h with rfl | h
          · exact ⟨passed, rest, d, rfl, hd, rfl⟩
          · exact hlater ((hpassed.trans htaken).trans (Cursor.reads_next hnext)) h

/-- Every match of a search is a match that starts somewhere in the text. -/
theorem mem_searchAll {offset : Nat} {text : List Char} {m : Match}
    (h : m ∈ p.searchAll offset text) :
    ∃ passed rest d, text = passed ++ rest ∧
      d ∈ p.ends ⟨passed.getLast?, offset + byteLength passed, rest, []⟩ ∧
      m = ⟨⟨offset + byteLength passed, d.offset⟩, d.groups⟩ := by
  obtain ⟨passed, rest, d, htext, hd, hm⟩ := mem_searchAllFrom h
  rw [Option.or_none] at hd
  exact ⟨passed, rest, d, htext, hd, hm⟩

/-- Each match of a search starts where the one before it ends, or later. -/
theorem pairwise_searchAllFrom (p : Pattern) (fuel : Nat) (before : Option Char) (offset : Nat)
    (text : List Char) :
    (p.searchAllFrom fuel before offset text).Pairwise fun m m' => m.span.stop ≤ m'.span.start := by
  induction fuel generalizing before offset text with
  | zero => exact List.Pairwise.nil
  | succ fuel ih =>
    have hlater : ∀ {stop : Nat} {e : Cursor}, stop ≤ e.offset →
        ∀ m ∈ p.searchAllFrom fuel e.before e.offset e.rest, stop ≤ m.span.start := by
      intro stop e hstop m hm
      obtain ⟨passed, rest, d, -, -, rfl⟩ := mem_searchAllFrom hm
      exact Nat.le_add_right_of_le hstop
    simp only [searchAllFrom]
    split
    · exact List.Pairwise.nil
    · next m d hfirst =>
      obtain ⟨passed, rest, -, -, rfl⟩ := searchFrom?_spec hfirst
      split
      · exact List.pairwise_cons.mpr ⟨hlater (Nat.le_refl d.offset), ih ..⟩
      · split
        · exact List.pairwise_singleton ..
        · next a e hnext =>
          refine List.pairwise_cons.mpr ⟨hlater ?_, ih ..⟩
          rw [(Cursor.reads_next hnext).offset]
          exact Nat.le_add_right d.offset _

/-- The place reached by a match of a search, and the groups in it, are cuts of the text. -/
theorem onBoundary_of_mem_searchAll {text : List Char} {m : Match} (h : m ∈ p.searchAll 0 text) :
    onBoundary m.span.stop text = true ∧
      ∀ n g, m.group? n = some g → onBoundary g.start text = true := by
  obtain ⟨passed, rest, d, rfl, hd, rfl⟩ := mem_searchAll h
  have hcut : ∀ {taken : List Char} {e : Cursor},
      Cursor.Reads ⟨passed.getLast?, 0 + byteLength passed, rest, []⟩ taken e →
      onBoundary e.offset (passed ++ rest) = true := by
    intro taken e hreads
    rw [hreads.offset, Nat.zero_add]
    exact onBoundary_add (onBoundary_byteLength passed rest) (by
      rw [dropBytes_byteLength, show rest = taken ++ e.rest from hreads.rest]
      exact onBoundary_byteLength taken e.rest)
  constructor
  · obtain ⟨taken, htaken⟩ := exists_reads_of_mem_ends hd
    exact hcut htaken
  · intro n g hg
    rcases start_of_mem_groups hd (n, g) (mem_groups_of_group? hg) with hk | ⟨taken, e, hreads, hstart⟩
    · cases hk
    · rw [hstart]
      exact hcut hreads

end Search

end Pattern

end Concordance
