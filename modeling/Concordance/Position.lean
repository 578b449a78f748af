/-!
Places in a text: a line and a character on it, both counted from zero, and ranges between two
places.
-/

namespace Concordance

/-- A line and a character on it, counted from zero. -/
structure Position where
  line : Nat
  character : Nat
deriving Repr, DecidableEq, Inhabited

namespace Position

/-- Reading order: by line, then by character. -/
def before (a b : Position) : Bool :=
  a.line < b.line || (a.line == b.line && a.character < b.character)

/-- At the same place or earlier in reading order. -/
def upTo (a b : Position) : Bool :=
  a.line < b.line || (a.line == b.line && a.character ≤ b.character)

theorem upTo_refl (a : Position) : a.upTo a = true := by
  simp [upTo]

theorem upTo_trans {a b c : Position} (hab : a.upTo b = true) (hbc : b.upTo c = true) :
    a.upTo c = true := by
  simp only [upTo, Bool.or_eq_true, Bool.and_eq_true, decide_eq_true_eq, beq_iff_eq] at *
  omega

theorem upTo_total (a b : Position) : a.upTo b = true ∨ b.upTo a = true := by
  simp only [upTo, Bool.or_eq_true, Bool.and_eq_true, decide_eq_true_eq, beq_iff_eq]
  omega

theorem upTo_antisymm {a b : Position} (hab : a.upTo b = true) (hba : b.upTo a = true) : a = b := by
  cases a
  cases b
  simp only [upTo, Bool.or_eq_true, Bool.and_eq_true, decide_eq_true_eq, beq_iff_eq] at hab hba
  rw [mk.injEq]
  omega

theorem upTo_iff_not_before (a b : Position) : a.upTo b = true ↔ b.before a = false := by
  simp [upTo, before]
  omega

end Position

/-- A stretch of text from `start` to `stop`, both ends included. -/
structure Range where
  start : Position
  stop : Position
deriving Repr, DecidableEq, Inhabited

namespace Range

/-- The place lies in the range. -/
def contains (r : Range) (p : Position) : Bool :=
  r.start.upTo p && p.upTo r.stop

theorem contains_iff (r : Range) (p : Position) :
    r.contains p = true ↔ r.start.upTo p = true ∧ p.upTo r.stop = true := by
  simp [contains]

end Range

end Concordance
