import Concordance.Block.Place

/-!
The search for a definition near the line where it was recorded.

The search starts at the recorded line and moves away from it in both directions, downwards first, up
to the larger one of the recorded line and the number of lines. The lines it meets come in the order
of a distance (`lineDistance`), and every line of the text is among them, so the line found is the
defining line with the least distance (`definitionLine?_eq_some_iff`). Main statement:
`definitionLine?_nearest`.
-/

namespace Concordance

open Text

variable {recorded reach : Nat}

section Distance

/-- How far a line is from the recorded one; of two lines as far, the lower counts as nearer. -/
def lineDistance (recorded line : Nat) : Nat :=
  if recorded ≤ line then 2 * (line - recorded) else 2 * (recorded - line) + 1

theorem lineDistance_self (recorded : Nat) : lineDistance recorded recorded = 0 := by
  simp [lineDistance]

/-- A line is as near as another one if it is closer to the recorded line, or as close and not above
the other. -/
theorem lineDistance_le_iff {m n : Nat} :
    lineDistance recorded m ≤ lineDistance recorded n ↔
      ((m : Int) - recorded).natAbs ≤ ((n : Int) - recorded).natAbs ∧
        (((m : Int) - recorded).natAbs = ((n : Int) - recorded).natAbs → n ≤ m) := by
  unfold lineDistance
  split <;> split <;> omega

end Distance

section Outward

/-- The lines met on the way from the recorded line outwards, up to a distance of `reach`: at each
distance the line below and then, as long as there is one, the line above. -/
def linesOutward (recorded : Nat) : Nat → List Nat
  | 0 => [recorded]
  | reach + 1 =>
    linesOutward recorded reach ++
      if reach < recorded then [recorded + (reach + 1), recorded - (reach + 1)]
      else [recorded + (reach + 1)]

/-- Every line within reach is met. -/
theorem mem_linesOutward {n : Nat} :
    n ∈ linesOutward recorded reach ↔ n ≤ recorded + reach ∧ recorded ≤ n + reach := by
  induction reach with
  | zero =>
    rw [linesOutward, List.mem_singleton]
    omega
  | succ reach ih =>
    rw [linesOutward, List.mem_append, ih]
    split
    · simp only [List.mem_cons, List.not_mem_nil, or_false]
      omega
    · simp only [List.mem_cons, List.not_mem_nil, or_false]
      omega

/-- The lines are met in the order of their distances. -/
theorem pairwise_linesOutward (recorded reach : Nat) :
    (linesOutward recorded reach).Pairwise
      fun a b => lineDistance recorded a < lineDistance recorded b := by
  induction reach with
  | zero => exact List.pairwise_singleton _ _
  | succ reach ih =>
    rw [linesOutward, List.pairwise_append]
    refine ⟨ih, ?_, ?_⟩
    · split
      · rw [List.pairwise_pair]
        unfold lineDistance
        split <;> split <;> omega
      · exact List.pairwise_singleton _ _
    · -- what was met before lies within the smaller reach
      intro a ha b hb
      obtain ⟨hbelow, habove⟩ := mem_linesOutward.mp ha
      have hnew : b = recorded + (reach + 1) ∨ reach < recorded ∧ b = recorded - (reach + 1) := by
        split at hb
        · next hlt => simpa [hlt] using hb
        · next hge => simpa [hge] using hb
      unfold lineDistance
      split <;> split <;> omega

/-- The first of the lines met that passes a test is the nearest one within reach that does. -/
theorem find?_linesOutward_eq_some_iff {test : Nat → Bool} {m : Nat} :
    (linesOutward recorded reach).find? test = some m ↔
      m ∈ linesOutward recorded reach ∧ test m = true ∧
        ∀ n ∈ linesOutward recorded reach, test n = true →
          lineDistance recorded m ≤ lineDistance recorded n := by
  have hsorted := pairwise_linesOutward recorded reach
  rw [List.find?_eq_some_iff_append]
  constructor
  · rintro ⟨htest, before, after, hlines, hbefore⟩
    rw [hlines] at hsorted ⊢
    obtain ⟨-, hafter, -⟩ := List.pairwise_append.mp hsorted
    refine ⟨List.mem_append_right _ List.mem_cons_self, htest, fun n hn hpass => ?_⟩
    rcases List.mem_append.mp hn with hn | hn
    · simpa [hpass] using hbefore n hn
    · rcases List.mem_cons.mp hn with rfl | hn
      · exact Nat.le_refl _
      · exact Nat.le_of_lt ((List.pairwise_cons.mp hafter).1 n hn)
  · rintro ⟨hm, htest, hmin⟩
    obtain ⟨before, after, hlines⟩ := List.append_of_mem hm
    refine ⟨htest, before, after, hlines, fun n hn => ?_⟩
    rw [hlines] at hsorted hmin
    have hlt := (List.pairwise_append.mp hsorted).2.2 n hn m List.mem_cons_self
    rw [Bool.not_eq_true', Bool.eq_false_iff]
    intro hpass
    have hle := hmin n (List.mem_append_left _ hn) hpass
    omega

/-- The search is the search among the lines met, once those up to a distance are behind it. -/
theorem find?_linesOutward_add {test : Nat → Bool} (left : Nat) :
    (linesOutward recorded (reach + left)).find? test =
      ((linesOutward recorded reach).find? test).or
        (searchOutward test recorded (reach + 1) left) := by
  induction left generalizing reach with
  | zero => rw [searchOutward, Nat.add_zero, Option.or_none]
  | succ left ih =>
    -- the lines at the next distance are the first that are left
    have hnext : reach + (left + 1) = reach + 1 + left := by omega
    rw [hnext, ih, linesOutward, List.find?_append, Option.or_assoc, searchOutward]
    congr 1
    by_cases hbelow : test (recorded + (reach + 1)) = true
    · split <;> simp [hbelow]
    · by_cases hlt : reach < recorded
      · cases habove : test (recorded - (reach + 1)) <;> simp [hbelow, hlt, habove, Nat.succ_le_iff]
      · simp [hbelow, hlt, Nat.succ_le_iff]

end Outward

section DefinitionLine

variable {lines : List (List Char)} {symbol : Symbol}

/-- The line with the number holds the definition. -/
def DefinedAt (lines : List (List Char)) (symbol : Symbol) (n : Nat) : Prop :=
  n < lines.length ∧ definesOnFirst (lines.drop n) symbol = true

theorem defines_iff {n : Nat} :
    (n < lines.length && definesOnFirst (lines.drop n) symbol) = true ↔ DefinedAt lines symbol n := by
  rw [Bool.and_eq_true, decide_eq_true_iff, DefinedAt]

/-- The recorded line or the number of lines, whichever is larger, is far enough to meet every
line. -/
theorem DefinedAt.mem_linesOutward {n : Nat} (h : DefinedAt lines symbol n) :
    n ∈ linesOutward symbol.position.line (max symbol.position.line lines.length) := by
  have hlt := h.1
  rw [Concordance.mem_linesOutward]
  omega

/-- The line found is the first defining line on the way outwards. -/
theorem definitionLine?_eq_find? (lines : List (List Char)) (symbol : Symbol) :
    definitionLine? lines symbol =
      (linesOutward symbol.position.line (max symbol.position.line lines.length)).find?
        fun n => n < lines.length && definesOnFirst (lines.drop n) symbol := by
  rw [← Nat.zero_add (max _ _), find?_linesOutward_add, linesOutward, List.find?_singleton,
    definitionLine?, Nat.zero_add]
  dsimp only
  split
  · rfl
  · rfl

/-- The line found is the defining line nearest to the recorded one. -/
theorem definitionLine?_eq_some_iff {d : Nat} :
    definitionLine? lines symbol = some d ↔
      DefinedAt lines symbol d ∧ ∀ n, DefinedAt lines symbol n →
        lineDistance symbol.position.line d ≤ lineDistance symbol.position.line n := by
  rw [definitionLine?_eq_find?, find?_linesOutward_eq_some_iff]
  simp only [defines_iff]
  constructor
  · rintro ⟨-, hdef, hmin⟩
    exact ⟨hdef, fun n hn => hmin n hn.mem_linesOutward hn⟩
  · rintro ⟨hdef, hmin⟩
    exact ⟨hdef.mem_linesOutward, hdef, fun n _ hn => hmin n hn⟩

theorem definitionLine?_eq_none_iff :
    definitionLine? lines symbol = none ↔ ∀ n, ¬ DefinedAt lines symbol n := by
  rw [definitionLine?_eq_find?, List.find?_eq_none]
  simp only [defines_iff]
  exact ⟨fun h n hn => h n hn.mem_linesOutward hn, fun h n _ => h n⟩

/-- The recorded line is found exactly if it holds the definition. -/
theorem definitionLine?_eq_recorded_iff :
    definitionLine? lines symbol = some symbol.position.line ↔
      DefinedAt lines symbol symbol.position.line := by
  rw [definitionLine?_eq_some_iff]
  simp [lineDistance_self]

/-- A line that starts like a comment defines nothing. -/
theorem DefinedAt.not_commentLine {n : Nat} (h : DefinedAt lines symbol n) :
    isCommentLine (trim (lines[n]?.getD [])) = false := by
  obtain ⟨-, hdef⟩ := h
  simp only [definesOnFirst, List.head?_drop] at hdef
  split at hdef
  · simp at hdef
  · next hno =>
    simp only [Bool.or_eq_true, not_or, Bool.not_eq_true] at hno
    exact hno.2

/-- No line is found exactly if none defines the symbol. A line is found exactly if it is a defining
line, none is closer to the recorded line, and none as close stands below it. It is the line that is
met first on the way from the recorded line outwards, below before above. -/
theorem definitionLine?_nearest :
    (definitionLine? lines symbol = none ↔ ∀ n, ¬ DefinedAt lines symbol n) ∧
    (∀ m, definitionLine? lines symbol = some m ↔
      DefinedAt lines symbol m ∧ ∀ n, DefinedAt lines symbol n →
        ((m : Int) - symbol.position.line).natAbs ≤ ((n : Int) - symbol.position.line).natAbs ∧
          (((m : Int) - symbol.position.line).natAbs = ((n : Int) - symbol.position.line).natAbs →
            n ≤ m)) ∧
    definitionLine? lines symbol =
      (linesOutward symbol.position.line (max symbol.position.line lines.length)).find?
        fun n => n < lines.length && definesOnFirst (lines.drop n) symbol := by
  refine ⟨definitionLine?_eq_none_iff, fun m => ?_, definitionLine?_eq_find? lines symbol⟩
  rw [definitionLine?_eq_some_iff]
  simp only [lineDistance_le_iff]

example :
    definitionLine? ["f".toList, "g".toList, "f".toList, "f".toList]
      { id := "", name := "f", kind := .function, filePath := "a.js", position := ⟨1, 0⟩,
        range := ⟨⟨1, 0⟩, ⟨1, 1⟩⟩ } = some 2 := by
  decide +kernel

end DefinitionLine

end Concordance
