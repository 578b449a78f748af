import Concordance.FileTree.Resolve
import Mathlib.Data.List.Infix

/-!
What a walk through a tree of files comes past.

Main statements: `mem_leaves_iff` (a walk comes past everything that is no directory, unless a
directory on the way is left out) and `filter_leaves` (leaving directories out loses nothing of what
is kept afterwards, if nothing below them is).
-/

namespace Concordance

namespace FileNode

/-- The names lead from a node to another one, entry by entry. -/
inductive Reaches : FileNode → Location → FileNode → Prop where
  | here (node : FileNode) : Reaches node [] node
  | through {name : List Char} {child node : FileNode} {rest : Location}
      {entries : List (List Char × FileNode)} (entry : (name, child) ∈ entries)
      (onwards : Reaches child rest node) : Reaches (.directory entries) (name :: rest) node

section Leaves

variable {prune : Location → Bool} {leaf : Location × FileNode} {top : FileNode} {place : Location}
  {entries : List (List Char × FileNode)}

theorem mem_leavesIn_iff :
    leaf ∈ leavesIn prune place entries ↔
      ∃ name child, (name, child) ∈ entries ∧ leaf ∈ leaves prune (place ++ [name]) child := by
  induction entries with
  | nil => simp [leavesIn]
  | cons e rest ih =>
    obtain ⟨name, child⟩ := e
    rw [leavesIn, List.mem_append, ih]
    constructor
    · rintro (h | ⟨other, node, hentry, h⟩)
      · exact ⟨name, child, List.mem_cons_self, h⟩
      · exact ⟨other, node, List.mem_cons_of_mem _ hentry, h⟩
    · rintro ⟨other, node, hentry, h⟩
      rcases List.mem_cons.mp hentry with heq | hentry
      · cases heq
        exact Or.inl h
      · exact Or.inr ⟨other, node, hentry, h⟩

/-- The leaf is reached from the node at the place, and no directory on the way is left out. -/
def Met (prune : Location → Bool) (place : Location) (top : FileNode)
    (leaf : Location × FileNode) : Prop :=
  ∃ below, leaf.1 = place ++ below ∧ Reaches top below leaf.2 ∧ leaf.2.isDirectory = false ∧
    ∀ front, front <+: below → front ≠ below → prune (place ++ front) = false

theorem Met.of_entry {name : List Char} {child : FileNode} (hentry : (name, child) ∈ entries)
    (hplace : prune place = false) (h : Met prune (place ++ [name]) child leaf) :
    Met prune place (.directory entries) leaf := by
  obtain ⟨below, hleaf, hreaches, hkind, hfree⟩ := h
  refine ⟨name :: below, by simpa using hleaf, .through hentry hreaches, hkind, ?_⟩
  intro front hfront hne
  cases front with
  | nil => simpa using hplace
  | cons first rest =>
    obtain ⟨rfl, hrest⟩ := List.cons_prefix_cons.mp hfront
    simpa using hfree rest hrest fun heq => hne (heq ▸ rfl)

mutual

theorem met_of_mem_leaves : ∀ {top : FileNode} {place : Location},
    leaf ∈ leaves prune place top → Met prune place top leaf
  | .file content, place, h => by
    obtain rfl : leaf = (place, .file content) := by simpa [leaves] using h
    exact ⟨[], by simp, .here _, rfl, fun front hfront hne => absurd (List.prefix_nil.mp hfront) hne⟩
  | .link target, place, h => by
    obtain rfl : leaf = (place, .link target) := by simpa [leaves] using h
    exact ⟨[], by simp, .here _, rfl, fun front hfront hne => absurd (List.prefix_nil.mp hfront) hne⟩
  | .directory entries, place, h => by
    rw [leaves] at h
    split at h
    · cases h
    · next hplace =>
      obtain ⟨name, child, hentry, hmet⟩ := met_of_mem_leavesIn h
      exact hmet.of_entry hentry (by simpa using hplace)

theorem met_of_mem_leavesIn : ∀ {entries : List (List Char × FileNode)} {place : Location},
    leaf ∈ leavesIn prune place entries →
      ∃ name child, (name, child) ∈ entries ∧ Met prune (place ++ [name]) child leaf
  | [], _, h => by simp [leavesIn] at h
  | (name, child) :: rest, place, h => by
    rw [leavesIn] at h
    rcases List.mem_append.mp h with h | h
    · exact ⟨name, child, List.mem_cons_self, met_of_mem_leaves h⟩
    · obtain ⟨other, node, hentry, hmet⟩ := met_of_mem_leavesIn h
      exact ⟨other, node, List.mem_cons_of_mem _ hentry, hmet⟩

end

/-- A walk comes past everything that is no directory, unless a directory on the way is left out. -/
theorem mem_leaves_iff : leaf ∈ leaves prune place top ↔ Met prune place top leaf := by
  refine ⟨met_of_mem_leaves, ?_⟩
  rintro ⟨below, hleaf, hreaches, hkind, hfree⟩
  obtain ⟨l, node⟩ := leaf
  dsimp only at hleaf hreaches hkind
  subst hleaf
  induction hreaches generalizing place with
  | here node =>
    cases node with
    | file content => simp [leaves]
    | link target => simp [leaves]
    | directory entries => cases hkind
  | @through name child node rest entries hentry _ ih =>
    have hplace : prune place = false := by
      simpa using hfree [] List.nil_prefix (by simp)
    rw [leaves, hplace, if_neg (by simp)]
    have hbelow : ∀ front, front <+: rest → front ≠ rest →
        prune (place ++ [name] ++ front) = false := by
      intro front hfront hne
      have hprune := hfree (name :: front) (List.cons_prefix_cons.mpr ⟨rfl, hfront⟩)
        fun heq => hne (List.cons.inj heq).2
      simpa using hprune
    have hshape : place ++ name :: rest = place ++ [name] ++ rest := by simp
    rw [hshape]
    exact mem_leavesIn_iff.mpr ⟨name, child, hentry, ih hbelow hkind⟩

theorem isPrefix_of_mem_leaves (h : leaf ∈ leaves prune place top) : place <+: leaf.1 := by
  obtain ⟨below, hleaf, -⟩ := met_of_mem_leaves h
  exact ⟨below, hleaf.symm⟩

mutual

/-- Leaving directories out loses nothing that is kept afterwards, if nothing below them is. -/
theorem filter_leaves {keep : Location × FileNode → Bool} :
    ∀ (top : FileNode) (place : Location),
      (∀ front, place <+: front → prune front = true → ∀ leaf, front <+: leaf.1 → keep leaf = false) →
      (leaves prune place top).filter keep = (leaves (fun _ => false) place top).filter keep
  | .file content, place, _ => by simp only [leaves]
  | .link target, place, _ => by simp only [leaves]
  | .directory entries, place, h => by
    simp only [leaves, Bool.false_eq_true, ↓reduceIte]
    split
    · next hplace =>
      -- The walk goes no further, and what lies below is not kept.
      rw [List.filter_nil]
      refine (List.filter_eq_nil_iff.mpr fun leaf hleaf => ?_).symm
      obtain ⟨name, child, -, hmem⟩ := mem_leavesIn_iff.mp hleaf
      have hbelow : place <+: leaf.1 := (List.prefix_append place [name]).trans
        (isPrefix_of_mem_leaves hmem)
      simp [h place List.prefix_rfl hplace leaf hbelow]
    · exact filter_leavesIn entries place h

theorem filter_leavesIn {keep : Location × FileNode → Bool} :
    ∀ (entries : List (List Char × FileNode)) (place : Location),
      (∀ front, place <+: front → prune front = true → ∀ leaf, front <+: leaf.1 → keep leaf = false) →
      (leavesIn prune place entries).filter keep =
        (leavesIn (fun _ => false) place entries).filter keep
  | [], place, _ => by simp only [leavesIn]
  | (name, child) :: rest, place, h => by
    rw [leavesIn, leavesIn, List.filter_append, List.filter_append, filter_leavesIn rest place h,
      filter_leaves child (place ++ [name]) fun front hfront =>
        h front ((List.prefix_append place [name]).trans hfront)]

end

end Leaves

end FileNode

/-- The locations of everything below a location that is no directory, no directory left out. -/
def FileSystem.leavesBelow (fs : FileSystem) (root : Location) : List Location :=
  match fs.top.get? root with
  | none => []
  | some node => (node.leaves (fun _ => false) root).map Prod.fst

theorem FileSystem.mem_leavesBelow_iff {fs : FileSystem} {root l : Location} :
    l ∈ fs.leavesBelow root ↔ ∃ top below node, fs.top.get? root = some top ∧ l = root ++ below ∧
      top.Reaches below node ∧ node.isDirectory = false := by
  unfold leavesBelow
  cases fs.top.get? root with
  | none => simp
  | some top =>
    simp only [List.mem_map, FileNode.mem_leaves_iff, Option.some.injEq]
    constructor
    · rintro ⟨leaf, ⟨below, hleaf, hreaches, hkind, -⟩, rfl⟩
      exact ⟨top, below, leaf.2, rfl, hleaf, hreaches, hkind⟩
    · rintro ⟨_, below, node, rfl, rfl, hreaches, hkind⟩
      exact ⟨(root ++ below, node), ⟨below, rfl, hreaches, hkind, fun _ _ _ => rfl⟩, rfl⟩

end Concordance
