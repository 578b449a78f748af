import Concordance.Proofs.Pattern.Division

/-!
What a pattern is sure to read.

A text is accepted, with a given text behind it, if one of the ends of the pattern lies behind it,
wherever it stands. What follows has to be named, because a run of a class reads on as long as it can.
There is one lemma for each way to build a pattern that asks for nothing in front of it. Main
statement: `Accepts.many_append`, by which a repetition is followed step by step.
-/

namespace Concordance

open Text

variable {c d e : Cursor}

/-- What is left behind the characters that were read. -/
theorem Cursor.Reads.rest_eq {taken rest : List Char} (h : c.Reads taken d)
    (hc : c.rest = taken ++ rest) : d.rest = rest :=
  (List.append_cancel_left (hc.symm.trans h.rest)).symm

/-- Remembering a group reads nothing. -/
theorem Cursor.Reads.withGroups {taken : List Char} (h : c.Reads taken d)
    (groups : List (Nat × Span)) : c.Reads taken { d with groups := groups } :=
  ⟨h.rest, h.offset, h.before⟩

section Repeat

/-- The place where a repetition starts is one of its ends, and so are those that were passed. -/
theorem mem_repeatEnds_start {step : Cursor → List Cursor} {left : List Char} {passed : List Cursor}
    (hd : d ∈ c :: passed) : d ∈ repeatEnds step left c passed := by
  induction left generalizing c passed with
  | nil => exact hd
  | cons a left ih =>
    unfold repeatEnds
    split
    · exact hd
    · split
      · exact ih (List.mem_cons_of_mem _ hd)
      · exact hd

end Repeat

namespace Pattern

variable {p q : Pattern} {f : Char → Bool} {taken more rest : List Char}

/-- With every step from an end that moves forward a repetition has another end, if there is one way at
most to take the step. -/
theorem mem_repeatEnds_step (hp : p.Single) {left : List Char} {passed : List Cursor}
    (hleft : c.rest.length ≤ left.length) (hd : d ∈ repeatEnds p.ends left c passed)
    (he : e ∈ p.ends d) (hlt : d.offset < e.offset) :
    d ∈ passed ∨ e ∈ repeatEnds p.ends left c passed := by
  induction left generalizing c passed with
  | nil =>
    rcases List.mem_cons.mp hd with rfl | hd
    · -- nothing is left to read
      obtain ⟨taken, htaken⟩ := exists_reads_of_mem_ends he
      exact absurd (Nat.lt_of_lt_of_le (htaken.length_lt hlt) hleft) (Nat.not_lt_zero _)
    · exact Or.inl hd
  | cons a left ih =>
    -- from the start of the repetition there is this one step
    have hstart : ∀ next later, p.ends c = next :: later → d = c → e = next := by
      rintro next later hends rfl
      obtain hnone | ⟨only, honly⟩ := hp.ends_cases d
      · rw [hnone] at hends
        cases hends
      · rw [honly] at he hends
        rw [List.mem_singleton.mp he, (List.cons.inj hends).1]
    unfold repeatEnds at hd ⊢
    split at hd
    · next hnone =>
      rcases List.mem_cons.mp hd with rfl | hd
      · rw [hnone] at he
        cases he
      · exact Or.inl hd
    · next next later hends =>
      split at hd
      · next hforward =>
        obtain ⟨taken, htaken⟩ := exists_reads_of_mem_ends (hends ▸ List.mem_cons_self)
        have hfewer := htaken.length_lt hforward
        rw [if_pos hforward]
        rcases ih (Nat.le_of_lt_succ (Nat.lt_of_lt_of_le hfewer hleft)) hd with hd | he
        · rcases List.mem_cons.mp hd with hd | hd
          · rw [hstart next later hends hd]
            exact Or.inr (mem_repeatEnds_start List.mem_cons_self)
          · exact Or.inl hd
        · exact Or.inr he
      · next hback =>
        rcases List.mem_cons.mp hd with hd | hd
        · rw [hstart next later hends hd, hd] at hlt
          exact absurd hlt hback
        · exact Or.inl hd

theorem mem_ends_many_iff {greedy : Bool} :
    d ∈ (many greedy p).ends c ↔ d ∈ repeatEnds p.ends c.rest c [] := by
  cases greedy with
  | true => exact Iff.rfl
  | false => exact List.mem_reverse

section Accepts

/-- Where the pattern starts to read the text `taken` and `rest` behind it, one of its ends lies between
the two. -/
def Accepts (p : Pattern) (taken rest : List Char) : Prop :=
  ∀ c : Cursor, c.rest = taken ++ rest → ∃ d ∈ p.ends c, c.Reads taken d

theorem accepts_empty : empty.Accepts [] rest :=
  fun c _ => ⟨c, List.mem_singleton_self c, .refl c⟩

theorem accepts_one {a : Char} (ha : f a = true) : (one f).Accepts [a] rest := by
  intro c hc
  have hnext : c.next? = some (a, ⟨some a, c.offset + a.utf8Size, rest, c.groups⟩) := by
    rw [Cursor.next?, hc, List.singleton_append]
  refine ⟨_, ?_, Cursor.reads_next hnext⟩
  simp only [ends, hnext, if_pos ha, List.mem_singleton]

/-- A class ends where a character stands that is not of the class. -/
theorem head?_cons_not {a : Char} (ha : f a = false) : ∀ b ∈ (a :: rest).head?, f b = false := by
  intro b hb
  rwa [← Option.some.inj hb]

/-- A run reads up to the first character that is not of the class. -/
theorem accepts_run (htaken : ∀ a ∈ taken, f a = true) (hrest : ∀ a ∈ rest.head?, f a = false) :
    (run f).Accepts taken rest := by
  intro c hc
  have htake : c.rest.takeWhile f = taken := by
    rw [hc, List.takeWhile_append_of_pos htaken]
    cases rest with
    | nil => rw [List.takeWhile_nil, List.append_nil]
    | cons a rest =>
      rw [List.takeWhile_cons_of_neg (by simp [hrest a rfl]), List.append_nil]
  exact ⟨_, List.mem_singleton_self _, htake ▸ Cursor.reads_runEnd f c⟩

theorem Accepts.seq (hp : p.Accepts taken (more ++ rest)) (hq : q.Accepts more rest) :
    (Pattern.seq p q).Accepts (taken ++ more) rest := by
  intro c hc
  rw [List.append_assoc] at hc
  obtain ⟨d, hd, htaken⟩ := hp c hc
  obtain ⟨e, he, hmore⟩ := hq d (htaken.rest_eq hc)
  exact ⟨e, mem_ends_seq.mpr ⟨d, hd, he⟩, htaken.trans hmore⟩

theorem Accepts.cons {a : Char} (hp : p.Accepts [a] (more ++ rest)) (hq : q.Accepts more rest) :
    (Pattern.seq p q).Accepts (a :: more) rest :=
  hp.seq hq

theorem Accepts.group {n : Nat} (hp : p.Accepts taken rest) : (group n p).Accepts taken rest := by
  intro c hc
  obtain ⟨d, hd, htaken⟩ := hp c hc
  exact ⟨_, List.mem_map_of_mem hd, htaken.withGroups _⟩

theorem Accepts.optional (hp : p.Accepts taken rest) : (optional p).Accepts taken rest := by
  intro c hc
  obtain ⟨d, hd, htaken⟩ := hp c hc
  exact ⟨d, mem_ends_alt.mpr (Or.inl hd), htaken⟩

theorem accepts_optional_nil : (optional p).Accepts [] rest :=
  fun c _ => ⟨c, mem_ends_alt.mpr (Or.inr (List.mem_singleton_self c)), .refl c⟩

theorem accepts_textEnd : textEnd.Accepts [] [] := by
  intro c hc
  refine ⟨c, ?_, .refl c⟩
  simp only [ends, hc, List.nil_append, List.isEmpty_nil, ↓reduceIte, List.mem_singleton]

theorem accepts_literal (text : String) : (literal text).Accepts text.toList rest := by
  unfold literal
  induction text.toList with
  | nil => exact accepts_empty
  | cons a cs ih => exact (accepts_one (by simp)).cons ih

theorem accepts_someOf (hne : taken ≠ []) (htaken : ∀ a ∈ taken, f a = true)
    (hrest : ∀ a ∈ rest.head?, f a = false) : (someOf f).Accepts taken rest := by
  cases taken with
  | nil => exact absurd rfl hne
  | cons a taken =>
    obtain ⟨ha, htaken⟩ := List.forall_mem_cons.mp htaken
    exact (accepts_one ha).cons (accepts_run htaken hrest)

theorem accepts_many_nil {greedy : Bool} : (many greedy p).Accepts [] rest :=
  fun c _ => ⟨c, mem_ends_many_iff.mpr (mem_repeatEnds_start List.mem_cons_self), .refl c⟩

/-- From an end of a repetition a step that reads something leads to another end. -/
theorem exists_mem_ends_many {greedy : Bool} (hp : p.Single) (hd : d ∈ (many greedy p).ends c)
    (hstep : p.Accepts more rest) (hne : more ≠ []) (hrest : d.rest = more ++ rest) :
    ∃ e ∈ (many greedy p).ends c, d.Reads more e := by
  obtain ⟨e, he, hmore⟩ := hstep d hrest
  have hlt : d.offset < e.offset := by
    rw [hmore.offset]
    have hpos := Nat.pos_of_ne_zero fun hzero => hne (byteLength_eq_zero_iff.mp hzero)
    omega
  refine ⟨e, mem_ends_many_iff.mpr ?_, hmore⟩
  exact (mem_repeatEnds_step hp (Nat.le_refl _) (mem_ends_many_iff.mp hd) he hlt).resolve_left
    List.not_mem_nil

/-- A repetition that reads a text reads it with one more step behind it. -/
theorem Accepts.many_append {greedy : Bool} (hp : p.Single)
    (hmany : (many greedy p).Accepts taken (more ++ rest)) (hstep : p.Accepts more rest)
    (hne : more ≠ []) : (many greedy p).Accepts (taken ++ more) rest := by
  intro c hc
  rw [List.append_assoc] at hc
  obtain ⟨d, hd, htaken⟩ := hmany c hc
  obtain ⟨e, he, hmore⟩ := exists_mem_ends_many hp hd hstep hne (htaken.rest_eq hc)
  exact ⟨e, he, htaken.trans hmore⟩

/-- The same for a repetition behind another pattern. -/
theorem Accepts.seq_many_append {greedy : Bool} (hq : q.Single)
    (hmany : (Pattern.seq p (many greedy q)).Accepts taken (more ++ rest))
    (hstep : q.Accepts more rest) (hne : more ≠ []) :
    (Pattern.seq p (many greedy q)).Accepts (taken ++ more) rest := by
  intro c hc
  rw [List.append_assoc] at hc
  obtain ⟨d, hd, htaken⟩ := hmany c hc
  obtain ⟨b, hb, hd⟩ := mem_ends_seq.mp hd
  obtain ⟨e, he, hmore⟩ := exists_mem_ends_many hq hd hstep hne (htaken.rest_eq hc)
  exact ⟨e, mem_ends_seq.mpr ⟨b, hb, he⟩, htaken.trans hmore⟩

theorem accepts_many_one {greedy : Bool} (htaken : ∀ a ∈ taken, f a = true) :
    (many greedy (one f)).Accepts taken rest := by
  induction taken using List.reverseRecOn generalizing rest with
  | nil => exact accepts_many_nil
  | append_singleton taken a ih =>
    exact Accepts.many_append (single_one f) (ih fun b hb => htaken b (List.mem_append_left _ hb))
      (accepts_one (htaken a (by simp))) (List.cons_ne_nil a [])

end Accepts

end Pattern

end Concordance
