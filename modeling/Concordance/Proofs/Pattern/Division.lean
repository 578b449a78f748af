import Mathlib.Data.List.Forall2
import Concordance.Proofs.Pattern.Match
import Concordance.Proofs.Source.BareCode

/-!
The matches in a text that is divided at the end of a line.

What a match reads decides on it, as long as the pattern does not ask for the ends of the text. So if
no match reaches over the end of a line, but for white space at its front, the matches are those of the
two parts, each read alone.

Main statements: `searchAll_add` (the matches in a text that stands further on) and
`searchAll_append` (the matches in a divided text).
-/

namespace Concordance

open Text

/-- The stretch with its ends moved. -/
def Span.map (f : Nat → Nat) (s : Span) : Span :=
  ⟨f s.start, f s.stop⟩

/-- The match with its extent and its groups moved. -/
def Match.map (f : Nat → Nat) (m : Match) : Match :=
  ⟨m.span.map f, m.groups.map fun g => (g.1, g.2.map f)⟩

/-- The same match, read from further on. -/
structure Match.Resumed (m m' : Match) : Prop where
  groups : m'.groups = m.groups
  stop : m'.span.stop = m.span.stop
  start : m.span.start ≤ m'.span.start

theorem Match.Resumed.refl (m : Match) : m.Resumed m :=
  ⟨rfl, rfl, Nat.le_refl _⟩

/-- The match does not reach over the end of the front part of a text that stands at the byte, but for
white space at its front. -/
def Match.Parted (m : Match) (offset : Nat) (front : List Char) : Prop :=
  m.span.stop < offset + byteLength front ∨ AllBlank (dropBytes (m.span.start - offset) front)

/-- It does so as well in what is left of the front part, if it starts there. -/
theorem Match.Parted.of_append {m : Match} {offset : Nat} {taken rest : List Char}
    (h : m.Parted offset (taken ++ rest)) (hle : offset + byteLength taken ≤ m.span.start) :
    m.Parted (offset + byteLength taken) rest := by
  refine h.imp (fun hlt => ?_) fun hblank => ?_
  · rwa [Nat.add_assoc, ← byteLength_append]
  · have hsub : m.span.start - offset =
        byteLength taken + (m.span.start - (offset + byteLength taken)) := by omega
    rwa [hsub, dropBytes_append] at hblank

/-- A character that can be seen. -/
def Visible (o : Option Char) : Prop :=
  ∃ c, o = some c ∧ isBlank c = false

/-- Nothing stands before, or a line feed. -/
def LineEdge (o : Option Char) : Prop :=
  o = none ∨ o = some '\n'

namespace Cursor

/-- The same place in the same text, which stands `k` bytes further on. -/
structure Shifted (k : Nat) (c d : Cursor) : Prop where
  before : d.before = c.before ∨ LineEdge c.before ∧ LineEdge d.before
  offset : d.offset = c.offset + k
  rest : d.rest = c.rest
  groups : d.groups = c.groups.map fun g => (g.1, g.2.map (· + k))

/-- The same place in a text that goes on. -/
def extend (back : List Char) (c : Cursor) : Cursor :=
  { c with rest := c.rest ++ back }

variable {c d : Cursor} {k : Nat}

theorem Shifted.all_before (h : c.Shifted k d) :
    d.before.all (· == '\n') = c.before.all (· == '\n') := by
  rcases h.before with h | ⟨hc | hc, hd | hd⟩
  · rw [h]
  all_goals rw [hc, hd]
  all_goals rfl

theorem Shifted.onWordEdge (h : c.Shifted k d) : d.onWordEdge = c.onWordEdge := by
  have hnone : isWordChar '\n' = false := by decide
  have hbefore : d.before.any isWordChar = c.before.any isWordChar := by
    rcases h.before with h | ⟨hc | hc, hd | hd⟩
    · rw [h]
    all_goals rw [hc, hd]
    all_goals simp [hnone]
  rw [Cursor.onWordEdge, Cursor.onWordEdge, hbefore, h.rest]

end Cursor

theorem forall₂_repeatEnds {R : Cursor → Cursor → Prop} {step : Cursor → List Cursor}
    (hR : ∀ c d, R c d → ∀ c' d', R c' d' → (c.offset < c'.offset ↔ d.offset < d'.offset))
    (hstep : ∀ c d, R c d → List.Forall₂ R (step c) (step d)) (left : List Char) {c d : Cursor}
    (h : R c d) {passed passed' : List Cursor} (hpassed : List.Forall₂ R passed passed') :
    List.Forall₂ R (repeatEnds step left c passed) (repeatEnds step left d passed') := by
  induction left generalizing c d passed passed' with
  | nil => exact .cons h hpassed
  | cons a left ih =>
    have hnext := hstep c d h
    unfold repeatEnds
    cases hc : step c with
    | nil =>
      rw [hc] at hnext
      rw [List.forall₂_nil_left_iff.mp hnext]
      exact .cons h hpassed
    | cons c' cs =>
      rw [hc] at hnext
      obtain ⟨d', ds, hd', -, hd⟩ := List.forall₂_cons_left_iff.mp hnext
      rw [hd]
      dsimp only
      by_cases hlt : c.offset < c'.offset
      · rw [if_pos hlt, if_pos ((hR c d h c' d' hd').mp hlt)]
        exact ih hd' (.cons h hpassed)
      · rw [if_neg hlt, if_neg fun hlt' => hlt ((hR c d h c' d' hd').mpr hlt')]
        exact .cons h hpassed

/-- A repetition adds places that lie no further back. -/
theorem repeatEnds_eq_append (step : Cursor → List Cursor) (left : List Char) (c : Cursor)
    (passed : List Cursor) :
    ∃ places, repeatEnds step left c passed = places ++ passed ∧
      ∀ e ∈ places, c.offset ≤ e.offset := by
  induction left generalizing c passed with
  | nil => exact ⟨[c], rfl, by simp⟩
  | cons a left ih =>
    unfold repeatEnds
    split
    · exact ⟨[c], rfl, by simp⟩
    · next d ds _ =>
      split
      · next hlt =>
        obtain ⟨places, hplaces, hle⟩ := ih d (c :: passed)
        refine ⟨places ++ [c], by simp [hplaces], ?_⟩
        intro e he
        rcases List.mem_append.mp he with he | he
        · exact Nat.le_trans (Nat.le_of_lt hlt) (hle e he)
        · rw [List.mem_singleton.mp he]
      · exact ⟨[c], rfl, by simp⟩

namespace Pattern

variable {p q : Pattern} {c d : Cursor} {k : Nat}

section Local

/-- The pattern has at most one end. -/
def Single (p : Pattern) : Prop :=
  ∀ c, (p.ends c).length ≤ 1

/-- What a match reads decides on it: the pattern does not ask for the ends of the text, and what it
repeats has one end at most. -/
def Local : Pattern → Prop
  | .seq p q => p.Local ∧ q.Local
  | .alt p q => p.Local ∧ q.Local
  | .many _ p => p.Local ∧ p.Single
  | .group _ p => p.Local
  | .textStart => False
  | .textEnd => False
  | _ => True

/-- The pattern does not ask for the start of the text. -/
def floating : Pattern → Bool
  | .seq p q => p.floating && q.floating
  | .alt p q => p.floating && q.floating
  | .many _ p => p.floating
  | .group _ p => p.floating
  | .textStart => false
  | _ => true

theorem Local.floating (h : p.Local) : p.floating = true := by
  induction p with
  | seq p q ihp ihq => exact Bool.and_eq_true_iff.mpr ⟨ihp h.1, ihq h.2⟩
  | alt p q ihp ihq => exact Bool.and_eq_true_iff.mpr ⟨ihp h.1, ihq h.2⟩
  | many greedy p ih => exact ih h.1
  | group n p ih => exact ih h
  | textStart | textEnd => exact h.elim
  | empty | one | run | lineStart | wordEdge => rfl

theorem Single.ends_cases (h : p.Single) (c : Cursor) : p.ends c = [] ∨ ∃ d, p.ends c = [d] := by
  rcases Nat.le_one_iff_eq_zero_or_eq_one.mp (h c) with hzero | hone
  · exact Or.inl (List.length_eq_zero_iff.mp hzero)
  · exact Or.inr (List.length_eq_one_iff.mp hone)

theorem single_one (f : Char → Bool) : (one f).Single := by
  intro c
  simp only [ends]
  split
  · split <;> simp
  · simp

theorem Single.seq (hp : p.Single) (hq : q.Single) : (Pattern.seq p q).Single := by
  intro c
  show ((p.ends c).flatMap q.ends).length ≤ 1
  obtain hc | ⟨d, hc⟩ := hp.ends_cases c <;> rw [hc]
  · exact Nat.zero_le 1
  · simpa using hq d

theorem single_literal (text : String) : (literal text).Single := by
  unfold literal
  induction text.toList with
  | nil => exact fun c => Nat.le_refl 1
  | cons a cs ih => exact (single_one _).seq ih

theorem single_gap : gap.Single :=
  (single_one _).seq fun _ => Nat.le_refl 1

/-- Of texts none of which starts with another, at most one is read. -/
theorem single_keyword {texts : List String}
    (h : texts.Pairwise fun a b => ¬ a.toList <+: b.toList ∧ ¬ b.toList <+: a.toList) :
    (keyword texts).Single := by
  intro c
  rw [keyword]
  induction texts with
  | nil => exact single_one _ c
  | cons text texts ih =>
    cases texts with
    | nil => exact single_literal text c
    | cons other others =>
      obtain ⟨hfirst, hrest⟩ := List.pairwise_cons.mp h
      have hone := single_literal text c
      have hlater := ih hrest
      show ((literal text).ends c ++ (keyword (other :: others)).ends c).length ≤ 1
      cases hends : (literal text).ends c with
      | nil => exact hlater
      | cons d ds =>
        have hread := reads_literal (hends ▸ List.mem_cons_self : d ∈ (literal text).ends c)
        have hnone : (keyword (other :: others)).ends c = [] := by
          rw [List.eq_nil_iff_forall_not_mem]
          intro e he
          obtain ⟨text', htext', hread'⟩ := reads_keyword he
          have hpre : text.toList <+: c.rest := ⟨d.rest, hread.rest.symm⟩
          have hpre' : text'.toList <+: c.rest := ⟨e.rest, hread'.rest.symm⟩
          obtain ⟨hnot, hnot'⟩ := hfirst text' htext'
          exact (List.prefix_or_prefix_of_prefix hpre hpre').elim hnot hnot'
        rw [hnone, List.append_nil, ← hends]
        exact hone

@[simp] theorem local_empty : empty.Local :=
  trivial

@[simp] theorem local_one (f : Char → Bool) : (one f).Local :=
  trivial

@[simp] theorem local_run (f : Char → Bool) : (run f).Local :=
  trivial

@[simp] theorem local_lineStart : lineStart.Local :=
  trivial

@[simp] theorem local_wordEdge : wordEdge.Local :=
  trivial

@[simp] theorem local_seq : (seq p q).Local ↔ p.Local ∧ q.Local :=
  Iff.rfl

@[simp] theorem local_alt : (alt p q).Local ↔ p.Local ∧ q.Local :=
  Iff.rfl

@[simp] theorem local_many {greedy : Bool} : (many greedy p).Local ↔ p.Local ∧ p.Single :=
  Iff.rfl

@[simp] theorem local_group {n : Nat} : (group n p).Local ↔ p.Local :=
  Iff.rfl

@[simp] theorem local_optional : (optional p).Local ↔ p.Local :=
  and_iff_left trivial

@[simp] theorem local_literal (text : String) : (literal text).Local := by
  unfold literal
  induction text.toList with
  | nil => trivial
  | cons a cs ih => exact ⟨trivial, ih⟩

theorem local_oneOf {ps : List Pattern} (h : ∀ p ∈ ps, p.Local) : (oneOf ps).Local := by
  induction ps using oneOf.induct with
  | case1 => trivial
  | case2 p => exact h p List.mem_cons_self
  | case3 p ps _ ih =>
    rw [oneOf]
    · exact ⟨h p List.mem_cons_self, ih fun q hq => h q (List.mem_cons_of_mem p hq)⟩
    · assumption

@[simp] theorem local_keyword (texts : List String) : (keyword texts).Local :=
  local_oneOf fun p hp => by
    obtain ⟨text, -, rfl⟩ := List.mem_map.mp hp
    exact local_literal text

@[simp] theorem local_all {ps : List Pattern} : (all ps).Local ↔ ∀ p ∈ ps, p.Local := by
  induction ps with
  | nil => exact iff_of_true trivial (by simp)
  | cons p ps ih =>
    rw [List.forall_mem_cons, ← ih]
    rfl

@[simp] theorem local_someOf (f : Char → Bool) : (someOf f).Local :=
  ⟨trivial, trivial⟩

@[simp] theorem local_gap : gap.Local :=
  local_someOf _

@[simp] theorem local_blanks : blanks.Local :=
  trivial

@[simp] theorem local_indent : indent.Local :=
  ⟨trivial, trivial⟩

end Local

section Shift

theorem shifted_ends_one {f : Char → Bool} (h : c.Shifted k d) :
    List.Forall₂ (Cursor.Shifted k) ((one f).ends c) ((one f).ends d) := by
  simp only [ends, Cursor.next?, h.rest]
  cases c.rest with
  | nil => exact .nil
  | cons a rest =>
    dsimp only
    split
    · refine .cons ⟨Or.inl rfl, ?_, rfl, h.groups⟩ .nil
      have := h.offset
      dsimp only
      omega
    · exact .nil

theorem shifted_runEnd {f : Char → Bool} (h : c.Shifted k d) :
    (Cursor.runEnd f c.groups c.before c.offset c.rest).Shifted k
      (Cursor.runEnd f d.groups d.before d.offset d.rest) := by
  rw [Cursor.runEnd_eq, Cursor.runEnd_eq, h.rest, h.offset]
  refine ⟨?_, by dsimp only; omega, rfl, h.groups⟩
  cases (c.rest.takeWhile f).getLast? with
  | none => exact h.before
  | some a => exact Or.inl rfl

/-- A text that stands further on is matched in the same places. -/
theorem shifted_ends (hp : p.floating = true) (h : c.Shifted k d) :
    List.Forall₂ (Cursor.Shifted k) (p.ends c) (p.ends d) := by
  induction p generalizing c d with
  | empty => exact .cons h .nil
  | one f => exact shifted_ends_one h
  | run f => exact .cons (shifted_runEnd h) .nil
  | seq p q ihp ihq =>
    obtain ⟨hp, hq⟩ := Bool.and_eq_true_iff.mp hp
    exact List.rel_flatMap (ihp hp h) fun _ _ h => ihq hq h
  | alt p q ihp ihq =>
    obtain ⟨hp, hq⟩ := Bool.and_eq_true_iff.mp hp
    exact List.rel_append (ihp hp h) (ihq hq h)
  | many greedy p ih =>
    have hplaces := forall₂_repeatEnds (R := Cursor.Shifted k)
      (fun c d h c' d' h' => by have := h.offset; have := h'.offset; omega)
      (fun c d h => ih hp h) c.rest h .nil
    simp only [ends, h.rest]
    split
    · exact hplaces
    · exact List.rel_reverse hplaces
  | group n p ih =>
    simp only [ends]
    rw [List.forall₂_map_left_iff, List.forall₂_map_right_iff]
    refine (ih hp h).imp fun e e' he => ⟨he.before, he.offset, he.rest, ?_⟩
    simp [he.groups, he.offset, h.offset, Span.map]
  | textStart => cases hp
  | lineStart =>
    simp only [ends, h.all_before]
    split
    · exact .cons h .nil
    · exact .nil
  | textEnd =>
    simp only [ends, h.rest]
    split
    · exact .cons h .nil
    · exact .nil
  | wordEdge =>
    simp only [ends, h.onWordEdge]
    split
    · exact .cons h .nil
    · exact .nil

end Shift

section Cut

variable {cut : Nat} {back : List Char}

theorem filter_ends_one (f : Char → Bool) (hcut : cut = c.offset + byteLength c.rest) :
    ((one f).ends (c.extend back)).filter (·.offset < cut) =
      (((one f).ends c).filter (·.offset < cut)).map (Cursor.extend back) := by
  obtain ⟨before, offset, rest, groups⟩ := c
  cases rest with
  | nil =>
    -- what is read here lies behind the cut
    have hcut : cut = offset := hcut
    subst hcut
    cases back with
    | nil => rfl
    | cons a back =>
      simp only [ends, Cursor.extend, Cursor.next?, List.nil_append]
      split <;> simp
  | cons a rest =>
    simp only [ends, Cursor.extend, Cursor.next?, List.cons_append]
    split
    · simp only [List.filter_cons, List.filter_nil]
      split <;> rfl
    · rfl

theorem filter_ends_run (f : Char → Bool) (hcut : cut = c.offset + byteLength c.rest) :
    ((run f).ends (c.extend back)).filter (·.offset < cut) =
      (((run f).ends c).filter (·.offset < cut)).map (Cursor.extend back) := by
  simp only [ends, Cursor.runEnd_eq, Cursor.extend]
  by_cases hall : (c.rest.takeWhile f).length = c.rest.length
  · -- the run goes on up to the cut
    have hwhole : c.rest.takeWhile f = c.rest :=
      (List.takeWhile_prefix f).eq_of_length hall
    rw [List.takeWhile_append, if_pos hall, hwhole]
    simp [hcut]
  · have hdrop : (c.rest ++ back).dropWhile f = c.rest.dropWhile f ++ back := by
      rw [List.dropWhile_append]
      split
      · next hempty =>
        rw [List.isEmpty_iff] at hempty
        have hlen := congrArg List.length (List.takeWhile_append_dropWhile (p := f) (l := c.rest))
        rw [hempty, List.append_nil] at hlen
        exact absurd hlen hall
      · rfl
    rw [List.takeWhile_append, if_neg hall, hdrop]
    simp only [List.filter_cons, List.filter_nil]
    split <;> rfl

/-- Ends that lie behind a cut are reached from places before it or behind it; from places behind it,
no others are. -/
theorem filter_flatMap_ends (q : Pattern) (cut : Nat) (cs : List Cursor) :
    (cs.flatMap q.ends).filter (·.offset < cut) =
      (cs.filter (·.offset < cut)).flatMap fun c => (q.ends c).filter (·.offset < cut) := by
  induction cs with
  | nil => rfl
  | cons c cs ih =>
    rw [List.flatMap_cons, List.filter_append, ih, List.filter_cons]
    split
    · rfl
    · next hc =>
      have hnone : (q.ends c).filter (·.offset < cut) = [] := by
        rw [List.filter_eq_nil_iff]
        intro d hd
        have := offset_le_of_mem_ends hd
        simp only [decide_eq_true_eq] at hc ⊢
        omega
      rw [hnone, List.nil_append]

theorem filter_repeatEnds_of_le {step : Cursor → List Cursor} (h : cut ≤ c.offset)
    (left : List Char) (passed : List Cursor) :
    (repeatEnds step left c passed).filter (·.offset < cut) = passed.filter (·.offset < cut) := by
  obtain ⟨places, hplaces, hle⟩ := repeatEnds_eq_append step left c passed
  have hnone : places.filter (·.offset < cut) = [] := by
    rw [List.filter_eq_nil_iff]
    intro e he
    have := hle e he
    simp only [decide_eq_true_eq]
    omega
  rw [hplaces, List.filter_append, hnone, List.nil_append]

/-- One step of a repetition, if there is one way at most to take it: it adds places before the cut only
if it ends there. -/
theorem Single.filter_repeatEnds_cons (hp : p.Single) (a : Char) (left : List Char) (c : Cursor)
    (passed : List Cursor) :
    (repeatEnds p.ends (a :: left) c passed).filter (·.offset < cut) =
      match (p.ends c).filter (·.offset < cut) with
      | [] => (c :: passed).filter (·.offset < cut)
      | d :: _ =>
        (if c.offset < d.offset then repeatEnds p.ends left d (c :: passed)
          else c :: passed).filter (·.offset < cut) := by
  rw [repeatEnds]
  obtain hnone | ⟨d, hd⟩ := hp.ends_cases c
  · rw [hnone]
    rfl
  · rw [hd]
    by_cases hbefore : d.offset < cut
    · have hkept : [d].filter (·.offset < cut) = [d] := by simp [hbefore]
      rw [hkept]
    · have hnone : [d].filter (·.offset < cut) = [] := by simpa using Nat.le_of_not_lt hbefore
      rw [hnone]
      dsimp only
      split
      · exact filter_repeatEnds_of_le (Nat.le_of_not_lt hbefore) ..
      · rfl

/-- The places of a repetition before the cut do not depend on what stands behind it. -/
theorem filter_repeatEnds (hsingle : p.Single)
    (hstep : ∀ c : Cursor, cut = c.offset + byteLength c.rest →
      (p.ends (c.extend back)).filter (·.offset < cut) =
        ((p.ends c).filter (·.offset < cut)).map (Cursor.extend back))
    {left left' : List Char} (hleft : c.rest.length ≤ left.length)
    (hleft' : c.rest.length ≤ left'.length) (hcut : cut = c.offset + byteLength c.rest)
    {passed passed' : List Cursor}
    (hpassed : passed'.filter (·.offset < cut) =
      (passed.filter (·.offset < cut)).map (Cursor.extend back)) :
    (repeatEnds p.ends left' (c.extend back) passed').filter (·.offset < cut) =
      ((repeatEnds p.ends left c passed).filter (·.offset < cut)).map (Cursor.extend back) := by
  induction left generalizing c left' passed passed' with
  | nil =>
    have hrest : c.rest = [] := List.length_eq_zero_iff.mp (Nat.le_zero.mp hleft)
    have hpast : cut ≤ c.offset := by simp [hcut, hrest]
    rw [filter_repeatEnds_of_le hpast, filter_repeatEnds_of_le (c := c.extend back) hpast, hpassed]
  | cons a left ih =>
    by_cases hrest : c.rest = []
    · have hpast : cut ≤ c.offset := by simp [hcut, hrest]
      rw [filter_repeatEnds_of_le hpast, filter_repeatEnds_of_le (c := c.extend back) hpast, hpassed]
    obtain ⟨b, left', rfl⟩ : ∃ b bs, left' = b :: bs := by
      cases left' with
      | nil => exact absurd (List.length_eq_zero_iff.mp (Nat.le_zero.mp hleft')) hrest
      | cons b bs => exact ⟨b, bs, rfl⟩
    have hpassed' : (c.extend back :: passed').filter (·.offset < cut) =
        ((c :: passed).filter (·.offset < cut)).map (Cursor.extend back) := by
      simp only [List.filter_cons, hpassed]
      show (if decide (c.offset < cut) = true then _ else _) = _
      split <;> rfl
    rw [hsingle.filter_repeatEnds_cons, hsingle.filter_repeatEnds_cons, hstep c hcut]
    cases hends : (p.ends c).filter (·.offset < cut) with
    | nil => exact hpassed'
    | cons d ds =>
      show List.filter _ (if c.offset < d.offset then _ else _) = _
      dsimp only
      split
      · next hlt =>
        have hd : d ∈ p.ends c := List.mem_of_mem_filter (hends ▸ List.mem_cons_self)
        obtain ⟨taken, htaken⟩ := exists_reads_of_mem_ends hd
        have hfewer := htaken.length_lt hlt
        rw [List.length_cons] at hleft hleft'
        refine ih (by omega) (by omega) ?_ hpassed'
        rw [hcut, htaken.rest, htaken.offset, byteLength_append, Nat.add_assoc]
      · exact hpassed'

theorem filter_extend (b : Bool) :
    (if b then [c.extend back] else []).filter (·.offset < cut) =
      ((if b then [c] else []).filter (·.offset < cut)).map (Cursor.extend back) := by
  cases b with
  | false => rfl
  | true =>
    simp only [↓reduceIte, List.filter_cons, List.filter_nil]
    show (if decide (c.offset < cut) = true then _ else _) = _
    split <;> rfl

/-- The ends before the cut do not depend on what stands behind it. -/
theorem filter_ends_extend (hp : p.Local) (hcut : cut = c.offset + byteLength c.rest)
    (back : List Char) :
    (p.ends (c.extend back)).filter (·.offset < cut) =
      ((p.ends c).filter (·.offset < cut)).map (Cursor.extend back) := by
  induction p generalizing c with
  | empty => exact filter_extend true
  | one f => exact filter_ends_one f hcut
  | run f => exact filter_ends_run f hcut
  | seq p q ihp ihq =>
    simp only [ends]
    rw [filter_flatMap_ends, filter_flatMap_ends, ihp hp.1 hcut, List.flatMap_map, List.map_flatMap]
    refine List.flatMap_congr fun e he => ihq hp.2 ?_
    obtain ⟨taken, htaken⟩ := exists_reads_of_mem_ends (List.mem_of_mem_filter he)
    rw [hcut, htaken.rest, htaken.offset, byteLength_append, Nat.add_assoc]
  | alt p q ihp ihq =>
    simp only [ends, List.filter_append, List.map_append, ihp hp.1 hcut, ihq hp.2 hcut]
  | many greedy p ih =>
    have hplaces : (repeatEnds p.ends (c.extend back).rest (c.extend back) []).filter
          (·.offset < cut) =
        ((repeatEnds p.ends c.rest c []).filter (·.offset < cut)).map (Cursor.extend back) :=
      filter_repeatEnds hp.2 (fun c hcut => ih hp.1 hcut) (Nat.le_refl _) (by simp [Cursor.extend])
        hcut rfl
    cases greedy with
    | true => exact hplaces
    | false => simp only [ends, Bool.false_eq_true, ↓reduceIte, List.filter_reverse, hplaces,
        List.map_reverse]
  | group n p ih =>
    simp only [ends, List.filter_map]
    have hsame := congrArg
      (List.map fun d : Cursor => { d with groups := (n, ⟨c.offset, d.offset⟩) :: d.groups })
      (ih hp hcut)
    rw [List.map_map] at hsame ⊢
    exact hsame
  | textStart | textEnd => exact hp.elim
  | lineStart => exact filter_extend _
  | wordEdge =>
    by_cases hrest : c.rest = []
    · have hpast : ∀ d : Cursor, d.offset = c.offset → decide (d.offset < cut) = false := by
        intro d hd
        simp [hcut, hrest, hd]
      simp only [ends]
      split <;> split <;> simp [hpast, Cursor.extend]
    · have hedge : (c.extend back).onWordEdge = c.onWordEdge := by
        obtain ⟨a, rest, hcons⟩ := List.exists_cons_of_ne_nil hrest
        simp [Cursor.onWordEdge, Cursor.extend, hcons]
      simp only [ends, hedge]
      exact filter_extend _

end Cut

section Search

variable {cut offset : Nat} {before : Option Char} {front back text : List Char}

/-- A match that starts on blank lines is found as well from the line behind them. -/
def Resumes (p : Pattern) : Prop :=
  ∀ ⦃c d : Cursor⦄ ⦃lines rest : List Char⦄, c.rest = lines ++ rest → AllBlank lines →
    lines.getLast? = some '\n' → (p.ends c).head? = some d →
      (p.ends ⟨some '\n', c.offset + byteLength lines, rest, c.groups⟩).head? = some d

/-- A pattern whose matches can be told apart at the ends of lines: what a match reads decides on it,
it reads something, no white space comes last, and blank lines at its front may be left out. -/
structure Divisible (p : Pattern) : Prop where
  isLocal : p.Local
  advances : p.Advances
  endsIn : p.EndsIn Visible
  resumes : p.Resumes

/-- In whole lines a match ends before the end. -/
theorem Divisible.offset_lt (hp : p.Divisible) (hc : WholeLines c.rest) (h : d ∈ p.ends c) :
    d.offset < c.offset + byteLength c.rest := by
  obtain ⟨taken, htaken⟩ := exists_reads_of_mem_ends h
  have hne := hp.advances.ne_nil h htaken
  have hrest : d.rest ≠ [] := by
    intro hnil
    have htext : c.rest = taken := by simpa [hnil] using htaken.rest
    have hlast : taken.getLast? = some '\n' := (htext ▸ hc).resolve_left hne
    obtain ⟨a, ha, hblank⟩ := hp.endsIn h
    rw [htaken.before, hlast, Option.some_or] at ha
    rw [← Option.some.inj ha] at hblank
    exact absurd hblank (by decide)
  obtain ⟨a, rest, hcons⟩ := List.exists_cons_of_ne_nil hrest
  have := a.utf8Size_pos
  rw [htaken.rest, htaken.offset, byteLength_append, hcons, byteLength_cons]
  omega

/-- Where nothing but white space is left there is no match. -/
theorem Divisible.ends_eq_nil (hp : p.Divisible) (hc : AllBlank c.rest) : p.ends c = [] := by
  rw [List.eq_nil_iff_forall_not_mem]
  intro d hd
  obtain ⟨taken, htaken⟩ := exists_reads_of_mem_ends hd
  obtain ⟨a, ha, hblank⟩ := hp.endsIn hd
  rw [htaken.before, List.getLast?_eq_getLast_of_ne_nil (hp.advances.ne_nil hd htaken),
    Option.some_or] at ha
  have hmem : a ∈ c.rest := by
    rw [htaken.rest, ← Option.some.inj ha]
    exact List.mem_append_left _ (List.getLast_mem _)
  rw [hc a hmem] at hblank
  cases hblank

theorem Divisible.searchFrom?_eq_none (hp : p.Divisible) (h : AllBlank text) :
    p.searchFrom? before offset text = none := by
  induction text generalizing before offset with
  | nil => simp [searchFrom?, hp.ends_eq_nil (c := ⟨before, offset, [], []⟩) h]
  | cons a text ih =>
    rw [searchFrom?, hp.ends_eq_nil (c := ⟨before, offset, a :: text, []⟩) h]
    exact ih fun b hb => h b (List.mem_cons_of_mem a hb)

/-- Read alone, whole lines have the ends that lie before the cut. -/
theorem Divisible.ends_extend (hp : p.Divisible) (hc : WholeLines c.rest) (back : List Char) :
    (p.ends (c.extend back)).filter (·.offset < c.offset + byteLength c.rest) =
      (p.ends c).map (Cursor.extend back) := by
  rw [filter_ends_extend hp.isLocal rfl, List.filter_eq_self.mpr]
  exact fun d hd => decide_eq_true (hp.offset_lt hc hd)

theorem searchFrom?_of_head? (h : (p.ends ⟨before, offset, text, []⟩).head? = some d) :
    p.searchFrom? before offset text = some (⟨⟨offset, d.offset⟩, d.groups⟩, d) := by
  cases text <;> simp [searchFrom?, h]

/-- A match found by a search is read from where the search started. -/
theorem Divisible.reads_of_searchFrom? (hp : p.Divisible) {m : Match}
    (h : p.searchFrom? before offset text = some (m, d)) :
    m.span.start < m.span.stop ∧ d.rest.length < text.length ∧
      ∃ taken, Cursor.Reads ⟨before, offset, text, []⟩ taken d := by
  obtain ⟨passed, rest, rfl, hd, rfl⟩ := searchFrom?_spec h
  obtain ⟨taken, htaken⟩ := exists_reads_of_mem_ends hd
  have hlen := List.length_pos_iff.mpr (hp.advances.ne_nil hd htaken)
  have hrest : rest = taken ++ d.rest := htaken.rest
  refine ⟨hp.advances hd, ?_, passed ++ taken, Cursor.Reads.trans ⟨rfl, rfl, rfl⟩ htaken⟩
  simp only [hrest, List.length_append]
  omega

theorem Divisible.searchAllFrom_succ (hp : p.Divisible) (fuel : Nat) :
    p.searchAllFrom (fuel + 1) before offset text =
      match p.searchFrom? before offset text with
      | none => []
      | some (m, d) => m :: p.searchAllFrom fuel d.before d.offset d.rest := by
  rw [searchAllFrom]
  cases h : p.searchFrom? before offset text with
  | none => rfl
  | some found => exact if_pos (hp.reads_of_searchFrom? h).1

theorem le_start_of_mem_searchAllFrom {fuel : Nat} {m : Match}
    (h : m ∈ p.searchAllFrom fuel before offset text) : offset ≤ m.span.start := by
  obtain ⟨passed, rest, d, -, -, rfl⟩ := mem_searchAllFrom h
  exact Nat.le_add_right _ _

/-- More fuel than characters finds no further match. -/
theorem Divisible.searchAllFrom_fuel (hp : p.Divisible) {fuel fuel' : Nat}
    (hfuel : text.length < fuel) (hfuel' : text.length < fuel') :
    p.searchAllFrom fuel before offset text = p.searchAllFrom fuel' before offset text := by
  induction fuel generalizing fuel' before offset text with
  | zero => omega
  | succ fuel ih =>
    obtain ⟨fuel', rfl⟩ := Nat.exists_eq_succ_of_ne_zero (Nat.ne_zero_of_lt hfuel')
    rw [hp.searchAllFrom_succ, hp.searchAllFrom_succ]
    cases h : p.searchFrom? before offset text with
    | none => rfl
    | some found =>
      obtain ⟨m, d⟩ := found
      have hlen := (hp.reads_of_searchFrom? h).2.1
      exact congrArg (m :: ·) (ih (by omega) (by omega))

/-- In whole lines the matches end before the end. -/
theorem Divisible.stop_lt (hp : p.Divisible) {m : Match} (hwhole : WholeLines text)
    (h : m ∈ p.searchAll offset text) : m.span.stop < offset + byteLength text := by
  obtain ⟨passed, rest, d, rfl, hd, rfl⟩ := mem_searchAll h
  have hlt := hp.offset_lt (hwhole.suffix ⟨passed, rfl⟩) hd
  rw [byteLength_append]
  dsimp only at hlt ⊢
  omega

section Shift

variable {before' : Option Char}

theorem shifted_ends_cases (hp : p.Local)
    (hbefore : before' = before ∨ LineEdge before ∧ LineEdge before') (offset k : Nat)
    (text : List Char) :
    (p.ends ⟨before, offset, text, []⟩ = [] ∧ p.ends ⟨before', offset + k, text, []⟩ = []) ∨
      ∃ c cs d ds, p.ends ⟨before, offset, text, []⟩ = c :: cs ∧
        p.ends ⟨before', offset + k, text, []⟩ = d :: ds ∧ c.Shifted k d := by
  have hends : List.Forall₂ (Cursor.Shifted k) (p.ends ⟨before, offset, text, []⟩)
      (p.ends ⟨before', offset + k, text, []⟩) :=
    shifted_ends hp.floating ⟨hbefore, rfl, rfl, rfl⟩
  cases hc : p.ends ⟨before, offset, text, []⟩ with
  | nil =>
    rw [hc] at hends
    exact Or.inl ⟨rfl, List.forall₂_nil_left_iff.mp hends⟩
  | cons c cs =>
    rw [hc] at hends
    obtain ⟨d, ds, hd, -, hcons⟩ := List.forall₂_cons_left_iff.mp hends
    exact Or.inr ⟨c, cs, d, ds, rfl, hcons, hd⟩

theorem map_match {c d : Cursor} (h : c.Shifted k d) :
    (⟨⟨offset + k, d.offset⟩, d.groups⟩ : Match) =
      Match.map (· + k) ⟨⟨offset, c.offset⟩, c.groups⟩ := by
  simp [Match.map, Span.map, h.offset, h.groups]

theorem searchFrom?_add (hp : p.Local)
    (hbefore : before' = before ∨ LineEdge before ∧ LineEdge before') :
    (p.searchFrom? before offset text = none ∧ p.searchFrom? before' (offset + k) text = none) ∨
      ∃ m c d, p.searchFrom? before offset text = some (m, c) ∧
        p.searchFrom? before' (offset + k) text = some (m.map (· + k), d) ∧ c.Shifted k d := by
  induction text generalizing before before' offset with
  | nil =>
    rcases shifted_ends_cases hp hbefore offset k [] with ⟨hc, hd⟩ | ⟨c, cs, d, ds, hc, hd, hcd⟩
    · exact Or.inl ⟨by simp [searchFrom?, hc], by simp [searchFrom?, hd]⟩
    · exact Or.inr ⟨⟨⟨offset, c.offset⟩, c.groups⟩, c, d, by simp [searchFrom?, hc],
        by simp [searchFrom?, hd, map_match hcd], hcd⟩
  | cons a text ih =>
    rcases shifted_ends_cases hp hbefore offset k (a :: text) with
      ⟨hc, hd⟩ | ⟨c, cs, d, ds, hc, hd, hcd⟩
    · simp only [searchFrom?, hc, hd, List.head?_nil, Nat.add_right_comm offset k]
      exact ih (Or.inl rfl)
    · exact Or.inr ⟨⟨⟨offset, c.offset⟩, c.groups⟩, c, d, by simp [searchFrom?, hc],
        by simp [searchFrom?, hd, map_match hcd], hcd⟩

theorem Divisible.searchAllFrom_add (hp : p.Divisible)
    (hbefore : before' = before ∨ LineEdge before ∧ LineEdge before') (fuel : Nat) :
    p.searchAllFrom fuel before' (offset + k) text =
      (p.searchAllFrom fuel before offset text).map (Match.map (· + k)) := by
  induction fuel generalizing before before' offset text with
  | zero => rfl
  | succ fuel ih =>
    rw [hp.searchAllFrom_succ, hp.searchAllFrom_succ]
    rcases searchFrom?_add (k := k) hp.isLocal hbefore with ⟨h, h'⟩ | ⟨m, c, d, h, h', hcd⟩
    · rw [h, h']
      rfl
    · rw [h, h']
      dsimp only
      rw [List.map_cons, hcd.offset, hcd.rest, ih hcd.before]

/-- The matches in a text that stands further on. -/
theorem Divisible.searchAll_add (hp : p.Divisible) (offset k : Nat) (text : List Char) :
    p.searchAll (offset + k) text = (p.searchAll offset text).map (Match.map (· + k)) :=
  hp.searchAllFrom_add (Or.inl rfl) _

end Shift

/-- How the first match in a divided text is found: in the front part or, if there is none, where the
first in the back part ends; or neither part has a match. -/
inductive FoundInParts (p : Pattern) (before : Option Char) (offset : Nat) (front back : List Char) :
    Prop
  | front {m : Match} {d : Cursor} (hfront : p.searchFrom? before offset front = some (m, d))
      (hall : p.searchFrom? before offset (front ++ back) = some (m, d.extend back))
  | back {m m' : Match} {d : Cursor} (hfront : p.searchFrom? before offset front = none)
      (hback : p.searchFrom? (front.getLast?.or before) (offset + byteLength front) back =
        some (m', d))
      (hall : p.searchFrom? before offset (front ++ back) = some (m, d)) (hresumed : m.Resumed m')
  | nowhere (hfront : p.searchFrom? before offset front = none)
      (hback : p.searchFrom? (front.getLast?.or before) (offset + byteLength front) back = none)
      (hall : p.searchFrom? before offset (front ++ back) = none)

/-- Where no match starts, the search goes on behind the character. -/
theorem FoundInParts.cons {a : Char}
    (h : p.FoundInParts (some a) (offset + a.utf8Size) front back)
    (hfront : p.ends ⟨before, offset, a :: front, []⟩ = [])
    (hall : p.ends ⟨before, offset, a :: (front ++ back), []⟩ = []) :
    p.FoundInParts before offset (a :: front) back := by
  have hskip : p.searchFrom? before offset (a :: front) =
      p.searchFrom? (some a) (offset + a.utf8Size) front := by
    simp [searchFrom?, hfront]
  have hskip' : p.searchFrom? before offset (a :: front ++ back) =
      p.searchFrom? (some a) (offset + a.utf8Size) (front ++ back) := by
    simp [searchFrom?, hall]
  have hback : p.searchFrom? ((a :: front).getLast?.or before) (offset + byteLength (a :: front))
      back = p.searchFrom? (front.getLast?.or (some a)) (offset + a.utf8Size + byteLength front)
        back := by
    rw [List.getLast?_cons, byteLength_cons, Nat.add_assoc]
    cases front.getLast? <;> rfl
  cases h with
  | front h h' => exact .front (hskip.trans h) (hskip'.trans h')
  | back h h' hall hresumed =>
    exact .back (hskip.trans h) (hback.trans h') (hskip'.trans hall) hresumed
  | nowhere h h' hall => exact .nowhere (hskip.trans h) (hback.trans h') (hskip'.trans hall)

/-- A match that starts where the text does is found in the front part, or nothing but white space comes
before the back part and it is found there. -/
theorem Divisible.foundInParts_of_ends (hp : p.Divisible) {a : Char} {e : Cursor} {es : List Cursor}
    (hfront : WholeLines (a :: front))
    (h : p.ends ⟨before, offset, a :: (front ++ back), []⟩ = e :: es)
    (hparted : Match.Parted ⟨⟨offset, e.offset⟩, e.groups⟩ offset (a :: front)) :
    p.FoundInParts before offset (a :: front) back := by
  have hall : p.searchFrom? before offset (a :: front ++ back) =
      some (⟨⟨offset, e.offset⟩, e.groups⟩, e) := by
    rw [List.cons_append]
    exact searchFrom?_of_head? (by rw [h]; rfl)
  rcases hparted with hlt | hblank
  · have hends := hp.ends_extend (c := ⟨before, offset, a :: front, []⟩) hfront back
    simp only [Cursor.extend, List.cons_append] at hends
    rw [h, List.filter_cons_of_pos (p := fun d : Cursor => d.offset < _) (decide_eq_true hlt)] at hends
    cases hshort : p.ends ⟨before, offset, a :: front, []⟩ with
    | nil => simp [hshort] at hends
    | cons d ds =>
      rw [hshort, List.map_cons] at hends
      obtain ⟨rfl, -⟩ := List.cons.inj hends
      exact .front (searchFrom?_of_head? (by rw [hshort]; rfl)) hall
  · dsimp only at hblank
    rw [Nat.sub_self, dropBytes_zero] at hblank
    have hlast : (a :: front).getLast? = some '\n' := hfront.resolve_left (List.cons_ne_nil a front)
    have hhead : (p.ends ⟨some '\n', offset + byteLength (a :: front), back, []⟩).head? = some e :=
      hp.resumes (c := ⟨before, offset, a :: (front ++ back), []⟩) rfl hblank hlast (by rw [h]; rfl)
    have hback := searchFrom?_of_head? hhead
    rw [← Option.some_or (o := before), ← hlast] at hback
    exact .back (hp.searchFrom?_eq_none hblank) hback hall ⟨rfl, rfl, Nat.le_add_right _ _⟩

/-- The first match in a divided text is that of one of its parts. -/
theorem Divisible.searchFrom?_append (hp : p.Divisible) (hfront : WholeLines front)
    (hparted : ∀ m d, p.searchFrom? before offset (front ++ back) = some (m, d) →
      m.Parted offset front) :
    p.FoundInParts before offset front back := by
  induction front generalizing before offset with
  | nil =>
    have hnone : p.searchFrom? before offset [] = none :=
      hp.searchFrom?_eq_none fun _ h => absurd h List.not_mem_nil
    cases h : p.searchFrom? before offset back with
    | none => exact .nowhere hnone h h
    | some found => exact .back hnone h h (.refl _)
  | cons a front ih =>
    cases hall : p.ends ⟨before, offset, a :: (front ++ back), []⟩ with
    | nil =>
      have hends := hp.ends_extend (c := ⟨before, offset, a :: front, []⟩) hfront back
      have hshort : p.ends ⟨before, offset, a :: front, []⟩ = [] := by
        simpa [Cursor.extend, hall] using hends.symm
      have hlast : (a :: front).getLast? = some '\n' :=
        hfront.resolve_left (List.cons_ne_nil a front)
      refine (ih (WholeLines.tail hlast) fun m d h => ?_).cons hshort hall
      have hskip : p.searchFrom? before offset (a :: front ++ back) =
          p.searchFrom? (some a) (offset + a.utf8Size) (front ++ back) := by
        simp [searchFrom?, hall]
      obtain ⟨passed, rest, -, -, rfl⟩ := searchFrom?_spec h
      have hlater : Match.Parted _ offset ([a] ++ front) := hparted _ d (hskip.trans h)
      exact hlater.of_append (Nat.le_add_right _ _)
    | cons e es =>
      refine hp.foundInParts_of_ends hfront hall (hparted _ e ?_)
      rw [List.cons_append]
      exact searchFrom?_of_head? (by rw [hall]; rfl)

theorem Divisible.searchAllFrom_append (hp : p.Divisible) (hfront : WholeLines front)
    {fuel fuel' fuel'' : Nat} (hfuel : (front ++ back).length < fuel)
    (hfuel' : front.length < fuel') (hfuel'' : back.length < fuel'')
    (hparted : ∀ m ∈ p.searchAllFrom fuel before offset (front ++ back), m.Parted offset front) :
    List.Forall₂ Match.Resumed (p.searchAllFrom fuel before offset (front ++ back))
      (p.searchAllFrom fuel' before offset front ++
        p.searchAllFrom fuel'' (front.getLast?.or before) (offset + byteLength front) back) := by
  induction fuel generalizing fuel' before offset front with
  | zero => omega
  | succ fuel ih =>
    obtain ⟨fuel', rfl⟩ := Nat.exists_eq_succ_of_ne_zero (Nat.ne_zero_of_lt hfuel')
    obtain ⟨fuel'', rfl⟩ := Nat.exists_eq_succ_of_ne_zero (Nat.ne_zero_of_lt hfuel'')
    rw [hp.searchAllFrom_succ fuel] at hparted ⊢
    rw [hp.searchAllFrom_succ fuel']
    have hfirst : ∀ m d, p.searchFrom? before offset (front ++ back) = some (m, d) →
        m.Parted offset front := fun m d h => hparted m (by rw [h]; exact List.mem_cons_self)
    rcases hp.searchFrom?_append hfront hfirst with
      @⟨m, d, hshort, hlong⟩ | @⟨m, m', d, hshort, hback, hlong, hresumed⟩ |
        ⟨hshort, hback, hlong⟩
    · obtain ⟨-, hfewer, taken, htaken⟩ := hp.reads_of_searchFrom? hshort
      have hrest : front = taken ++ d.rest := htaken.rest
      have hoffset : d.offset = offset + byteLength taken := htaken.offset
      have hlast : d.rest.getLast?.or d.before = front.getLast?.or before := by
        rw [htaken.before, hrest, List.getLast?_append, Option.or_assoc]
      have hcut : d.offset + byteLength d.rest = offset + byteLength front := by
        rw [hrest, hoffset, byteLength_append, Nat.add_assoc]
      rw [hlong] at hparted ⊢
      rw [hshort, ← hlast, ← hcut]
      rw [List.length_append] at hfuel
      refine .cons (.refl m) (ih (hfront.suffix ⟨taken, hrest.symm⟩) ?_ (by omega) fun m' hm' => ?_)
      · rw [List.length_append]
        omega
      · have hlater := hparted m' (List.mem_cons_of_mem m hm')
        have hle : d.offset ≤ m'.span.start := le_start_of_mem_searchAllFrom hm'
        rw [hrest] at hlater
        rw [hoffset] at hle
        show m'.Parted d.offset d.rest
        rw [hoffset]
        exact hlater.of_append hle
    · have hfewer := (hp.reads_of_searchFrom? hlong).2.1
      have hfewer' := (hp.reads_of_searchFrom? hback).2.1
      have hsame : p.searchAllFrom fuel d.before d.offset d.rest =
          p.searchAllFrom fuel'' d.before d.offset d.rest :=
        hp.searchAllFrom_fuel (by omega) (by omega)
      rw [hlong, hshort, List.nil_append, hp.searchAllFrom_succ fuel'', hback]
      refine .cons hresumed ?_
      rw [hsame]
      exact List.forall₂_same.mpr fun m _ => .refl m
    · rw [hlong, hshort, hp.searchAllFrom_succ fuel'', hback]
      exact .nil

/-- If no match reaches over the end of a line, but for white space at its front, the matches are those
of the two parts. -/
theorem Divisible.searchAll_append (hp : p.Divisible) (hfront : WholeLines front)
    (hparted : ∀ m ∈ p.searchAll offset (front ++ back), m.Parted offset front) :
    List.Forall₂ Match.Resumed (p.searchAll offset (front ++ back))
      (p.searchAll offset front ++ p.searchAll (offset + byteLength front) back) := by
  have hedge : LineEdge (front.getLast?.or none) := by
    rcases hfront with h | h
    · exact Or.inl (by simp [h])
    · exact Or.inr (by simp [h])
  -- read alone, the back part has nothing before it
  have hback : p.searchAllFrom (back.length + 1) (front.getLast?.or none)
      (offset + byteLength front) back = p.searchAll (offset + byteLength front) back := by
    have hzero : p.searchAllFrom (back.length + 1) (front.getLast?.or none)
        (0 + (offset + byteLength front)) back =
          (p.searchAll 0 back).map (Match.map (· + (offset + byteLength front))) :=
      hp.searchAllFrom_add (Or.inr ⟨Or.inl rfl, hedge⟩) (back.length + 1)
    have hzero' := hp.searchAll_add 0 (offset + byteLength front) back
    rw [Nat.zero_add] at hzero hzero'
    rw [hzero, hzero']
  rw [← hback]
  exact hp.searchAllFrom_append hfront (Nat.lt_succ_self _) (Nat.lt_succ_self _)
    (Nat.lt_succ_self _) hparted

end Search

end Pattern

end Concordance
