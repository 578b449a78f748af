import Mathlib.Data.List.Basic
import Concordance.FileTree.Basic
import Concordance.Proofs.Path

/-!
Where a path leads, and where its normal form does.

A walk takes the parts of a path one by one. What counts of it is its course: by how many directories
it goes up from where it starts, and by which names it comes down again. The normal form keeps the
names, but a step up takes back the one before it (`course_normalize`). Main statement:
`walk?_normalizePath_iff`.
-/

namespace Concordance

/-- The directory that a part leads to: a dot stays, two dots go to the directory above, a name goes
down. There is nothing above the root. -/
def PathPart.walk? (l : Location) : PathPart → Option Location
  | .current => some l
  | .parent => if l = [] then none else some l.dropLast
  | .name text => some (l ++ [text])

/-- The directory that a path leads to, part by part. An absolute path starts at the root. -/
def Path.walk? (l : Location) (p : Path) : Option Location :=
  p.parts.foldlM PathPart.walk? (if p.absolute then [] else l)

/-- What counts of a walk: the directories that it goes up, and the names by which it comes down. -/
structure Course where
  up : Nat
  down : Location
deriving Repr, DecidableEq

namespace Course

/-- The course that goes on with a part. Two dots take back the last name or go up. -/
def add (c : Course) : PathPart → Course
  | .current => c
  | .parent => if c.down = [] then ⟨c.up + 1, []⟩ else ⟨c.up, c.down.dropLast⟩
  | .name text => ⟨c.up, c.down ++ [text]⟩

/-- The directory that a course leads to. -/
def walk? (l : Location) (c : Course) : Option Location :=
  if c.up ≤ l.length then some (l.take (l.length - c.up) ++ c.down) else none

/-- The parts in which a normal form writes a course: of two steps up none is left. -/
def resolved (c : Course) : List PathPart :=
  (if c.up % 2 = 1 then [.parent] else []) ++ c.down.map .name

variable {l dest : Location}

theorem walk?_eq_some_iff {c : Course} :
    c.walk? l = some dest ↔ c.up ≤ l.length ∧ l.take (l.length - c.up) ++ c.down = dest := by
  simp [walk?]

section Walk

theorem up_le_up_add (c : Course) (part : PathPart) : c.up ≤ (c.add part).up := by
  cases part with
  | current => exact Nat.le_refl c.up
  | parent =>
    simp only [add]
    split <;> simp
  | name text => exact Nat.le_refl c.up

theorem walk?_parent_take {up : Nat} (h : up ≤ l.length) :
    PathPart.walk? (l.take (l.length - up)) .parent = walk? l ⟨up + 1, []⟩ := by
  by_cases htop : up + 1 ≤ l.length
  · have hne : l.take (l.length - up) ≠ [] := by
      rw [← List.length_pos_iff, List.length_take]
      omega
    have habove : (l.take (l.length - up)).dropLast = l.take (l.length - (up + 1)) := by
      rw [List.dropLast_eq_take, List.take_take, List.length_take]
      congr 1
      omega
    simp [PathPart.walk?, walk?, htop, hne, habove]
  · have hroot : l.take (l.length - up) = [] := by
      rw [List.take_eq_nil_iff]
      omega
    simp [PathPart.walk?, walk?, htop, hroot]

/-- The course goes where the walk goes. -/
theorem walk?_add (c : Course) (part : PathPart) (l : Location) :
    (c.add part).walk? l = (c.walk? l).bind part.walk? := by
  by_cases hup : c.up ≤ l.length
  · rw [walk?, walk?, if_pos hup, Option.bind_some]
    obtain ⟨up, down⟩ := c
    dsimp only at hup ⊢
    cases part with
    | current => simp [add, PathPart.walk?, hup]
    | parent =>
      rcases List.eq_nil_or_concat down with rfl | ⟨front, last, rfl⟩
      · rw [List.append_nil, walk?_parent_take hup]
        rfl
      · simp [add, PathPart.walk?, hup]
    | name text => simp [add, PathPart.walk?, hup]
  · -- above the root there is no way back
    have hadd : ¬ (c.add part).up ≤ l.length := fun h => hup ((up_le_up_add c part).trans h)
    rw [walk?, walk?, if_neg hup, if_neg hadd, Option.bind_none]

theorem walk?_foldl_add (parts : List PathPart) (c : Course) (l : Location) :
    (parts.foldl add c).walk? l = (c.walk? l).bind (parts.foldlM PathPart.walk?) := by
  induction parts generalizing c with
  | nil => simp
  | cons part parts ih =>
    rw [List.foldl_cons, ih, walk?_add, Option.bind_assoc]
    rfl

end Walk

section Resolved

/-- Resolving a part keeps to what the normal form makes of the course. -/
theorem resolvePart_resolved (c : Course) (part : PathPart) :
    Path.resolvePart c.resolved.reverse part = (c.add part).resolved.reverse := by
  obtain ⟨up, down⟩ := c
  cases part with
  | current => rfl
  | parent =>
    rcases List.eq_nil_or_concat down with rfl | ⟨front, last, rfl⟩
    · -- the step up is written, or taken back by the step up that is written
      rcases Nat.mod_two_eq_zero_or_one up with h | h
      · have hnext : (up + 1) % 2 = 1 := by omega
        simp [resolved, add, Path.resolvePart, h, hnext]
      · have hnext : (up + 1) % 2 = 0 := by omega
        simp [resolved, add, Path.resolvePart, h, hnext]
    · simp [resolved, add, Path.resolvePart]
  | name text =>
    rw [add, resolved, resolved, List.map_append, ← List.append_assoc, List.map_singleton,
      List.reverse_concat]
    rfl

theorem foldl_resolvePart (parts : List PathPart) (c : Course) :
    parts.foldl Path.resolvePart c.resolved.reverse = (parts.foldl add c).resolved.reverse := by
  induction parts generalizing c with
  | nil => rfl
  | cons part parts ih => rw [List.foldl_cons, List.foldl_cons, resolvePart_resolved, ih]

theorem foldl_add_names (names : Location) (c : Course) :
    (names.map PathPart.name).foldl add c = ⟨c.up, c.down ++ names⟩ := by
  induction names generalizing c with
  | nil => simp
  | cons text names ih => simp [ih, add]

theorem foldl_add_resolved (c : Course) : c.resolved.foldl add ⟨0, []⟩ = ⟨c.up % 2, c.down⟩ := by
  rw [resolved, List.foldl_append, foldl_add_names]
  rcases Nat.mod_two_eq_zero_or_one c.up with h | h <;> simp [h, add]

end Resolved

end Course

namespace Path

/-- The course of a path. -/
def course (p : Path) : Course :=
  p.parts.foldl Course.add ⟨0, []⟩

theorem walk?_eq_walk?_course (p : Path) (l : Location) :
    p.walk? l = p.course.walk? (if p.absolute then [] else l) := by
  have hstart : ∀ l : Location, Course.walk? l ⟨0, []⟩ = some l := fun l => by simp [Course.walk?]
  rw [course, Course.walk?_foldl_add, hstart]
  rfl

/-- The normal form of a path comes down by the same names, but goes up by at most one directory. -/
theorem course_normalize (p : Path) : p.normalize.course = ⟨p.course.up % 2, p.course.down⟩ := by
  have hparts : p.normalize.parts = p.course.resolved := by
    rw [normalize, course]
    exact List.reverse_eq_iff.mpr (Course.foldl_resolvePart p.parts ⟨0, []⟩)
  rw [course, hparts, Course.foldl_add_resolved]

/-- A path that leads to a directory, and its normal form, lead to the same one exactly if the path
goes up by at most one directory in all. -/
theorem walk?_normalizePath_iff {path : String} {l dest : Location}
    (h : (ofString path).walk? l = some dest) :
    (ofString (normalizePath path)).walk? l = some dest ↔ (ofString path).course.up ≤ 1 := by
  rw [ofString_normalizePath, walk?_eq_walk?_course, course_normalize]
  generalize ofString path = p at h
  have habsolute : p.normalize.absolute = p.absolute := rfl
  rw [walk?_eq_walk?_course] at h
  rw [habsolute]
  generalize (if p.absolute then [] else l) = start at h
  obtain ⟨hup, rfl⟩ := Course.walk?_eq_some_iff.mp h
  have hmod : p.course.up % 2 ≤ p.course.up := Nat.mod_le _ _
  rw [Course.walk?_eq_some_iff, and_iff_right (hmod.trans hup), List.append_left_inj]
  constructor
  · -- both start at the same directory, so they end at the same height only if they go up alike
    intro htake
    have hlength := congrArg List.length htake
    simp only [List.length_take] at hlength
    omega
  · intro hone
    rw [Nat.mod_eq_of_lt (Nat.lt_succ_of_le hone)]

theorem walk?_normalizePath_sibling :
    (ofString "./../x/..//y/z/../").walk? ["a".toList, "b".toList] = some ["a".toList, "y".toList] ∧
      (ofString (normalizePath "./../x/..//y/z/../")).walk? ["a".toList, "b".toList] =
        some ["a".toList, "y".toList] :=
  have h : (ofString "./../x/..//y/z/../").walk? ["a".toList, "b".toList] =
      some ["a".toList, "y".toList] := by decide +kernel
  ⟨h, (walk?_normalizePath_iff h).mpr (by decide +kernel)⟩

/-- The normal form of two steps up stays where it starts. -/
theorem walk?_normalizePath_ne :
    (ofString "../..").walk? ["a".toList, "b".toList] = some [] ∧
      (ofString (normalizePath "../..")).walk? ["a".toList, "b".toList] ≠ some [] := by
  decide +kernel

end Path

end Concordance
