import Concordance.Path

/-!
Trees of files, directories and symbolic links.

A node is found by the names that lead to it from the top. Main statements: `get?_put_self` and
`get?_put_of_ne`, writing a node changes what is found there and nowhere beside it.
-/

namespace Concordance

/-- A file, a symbolic link or a directory. -/
inductive FileNode where
  | file (content : ByteArray)
  | link (target : List Char)
  | directory (entries : List (List Char × FileNode))

/-- The names that lead from the top of a tree to a node. -/
abbrev Location := List (List Char)

namespace Location

/-- The absolute path of a location. -/
def path (l : Location) : String :=
  String.ofList ('/' :: List.intercalate ['/'] l)

/-- The node lies at the location or below it. -/
def holds (base l : Location) : Bool :=
  base.isPrefixOf l

end Location

namespace FileNode

/-- An empty directory. -/
def emptyDirectory : FileNode :=
  .directory []

/-- The node is a directory. -/
def isDirectory : FileNode → Bool
  | .directory _ => true
  | _ => false

/-- The node is a regular file. -/
def isFile : FileNode → Bool
  | .file _ => true
  | _ => false

/-- The entry of a directory with the name. -/
def entry? (name : List Char) : FileNode → Option FileNode
  | .directory entries => entries.lookup name
  | _ => none

/-- The node at a location below a node. Links are not followed. -/
def get? : FileNode → Location → Option FileNode
  | node, [] => some node
  | node, name :: rest => (node.entry? name).bind fun child => child.get? rest

/-- The entries with the one of the name changed by `change`, which is given an empty directory if
there is none. -/
def changeEntry (name : List Char) (change : FileNode → FileNode) :
    List (List Char × FileNode) → List (List Char × FileNode)
  | [] => [(name, change emptyDirectory)]
  | (other, node) :: rest =>
    if other = name then (other, change node) :: rest
    else (other, node) :: changeEntry name change rest

/-- The tree with `new` at a location; missing directories above it are made. What lies below
something that is no directory is left out. -/
def put : FileNode → Location → FileNode → FileNode
  | _, [], new => new
  | .directory entries, name :: rest, new =>
    .directory (changeEntry name (fun child => child.put rest new) entries)
  | node, _ :: _, _ => node

/-- The tree without the node at a location. -/
def erase : FileNode → Location → FileNode
  | node, [] => node
  | .directory entries, [name] => .directory (entries.filter fun e => e.1 != name)
  | .directory entries, name :: next :: rest =>
    .directory (entries.map fun e => if e.1 = name then (e.1, e.2.erase (next :: rest)) else e)
  | node, _ :: _ => node

mutual

/-- Everything in a tree that is no directory, each with its location, where `place` is that of the
tree. A directory for which `prune` holds of its location is left out with all that is in it. -/
def leaves (prune : Location → Bool) (place : Location) : FileNode → List (Location × FileNode)
  | .directory entries => if prune place then [] else leavesIn prune place entries
  | node => [(place, node)]

/-- The leaves of the entries of a directory. -/
def leavesIn (prune : Location → Bool) (place : Location) :
    List (List Char × FileNode) → List (Location × FileNode)
  | [] => []
  | (name, node) :: rest => leaves prune (place ++ [name]) node ++ leavesIn prune place rest

end

end FileNode

section Lemmas

open FileNode

theorem lookup_changeEntry_self (name : List Char) (change : FileNode → FileNode)
    (entries : List (List Char × FileNode)) :
    (changeEntry name change entries).lookup name =
      some (change ((entries.lookup name).getD emptyDirectory)) := by
  induction entries with
  | nil => simp [changeEntry]
  | cons e rest ih =>
    obtain ⟨other, node⟩ := e
    unfold changeEntry
    by_cases h : other = name
    · subst h
      simp
    · have h' : (name == other) = false := by
        simpa using fun he : name = other => h he.symm
      simp [h, List.lookup_cons, h', ih]

theorem lookup_changeEntry_of_ne {name other : List Char} (h : other ≠ name)
    (change : FileNode → FileNode) (entries : List (List Char × FileNode)) :
    (changeEntry name change entries).lookup other = entries.lookup other := by
  induction entries with
  | nil =>
    have h' : (other == name) = false := by simpa using h
    simp [changeEntry, List.lookup_cons, h']
  | cons e rest ih =>
    obtain ⟨key, node⟩ := e
    unfold changeEntry
    by_cases hk : key = name
    · have h' : (other == name) = false := by simpa using h
      simp [hk, List.lookup_cons, h']
    · by_cases ho : other = key
      · subst ho
        simp [hk]
      · have h' : (other == key) = false := by simpa using ho
        simp [hk, List.lookup_cons, h', ih]

/-- What is written in a directory is found there. -/
theorem get?_put_self (new : FileNode) (l : Location) (name : List Char)
    (entries : List (List Char × FileNode)) (top : FileNode)
    (h : top.get? l = some (.directory entries)) :
    (top.put (l ++ [name]) new).get? (l ++ [name]) = some new := by
  induction l generalizing top with
  | nil =>
    simp only [get?, Option.some.injEq] at h
    subst h
    simp [put, get?, entry?, lookup_changeEntry_self]
  | cons first rest ih =>
    cases top with
    | file content => simp [get?, entry?] at h
    | link target => simp [get?, entry?] at h
    | directory siblings =>
      simp only [get?, entry?, Option.bind_eq_some_iff] at h
      obtain ⟨child, hc, hr⟩ := h
      simp only [List.cons_append, put, get?, entry?, lookup_changeEntry_self, hc,
        Option.getD_some, Option.bind_some]
      exact ih child hr

/-- A location that is neither above nor below the written one shows what it showed before. -/
theorem get?_put_of_ne (new : FileNode) (l other : Location) (top : FileNode)
    (h₁ : ¬ l <+: other) (h₂ : ¬ other <+: l) :
    (top.put l new).get? other = top.get? other := by
  induction l generalizing other top with
  | nil => exact absurd (List.nil_prefix) h₁
  | cons first rest ih =>
    cases other with
    | nil => exact absurd (List.nil_prefix) h₂
    | cons name more =>
      cases top with
      | file content => simp [put]
      | link target => simp [put]
      | directory entries =>
        by_cases hn : name = first
        · subst hn
          have hp₁ : ¬ rest <+: more := fun hp => h₁ ((List.prefix_cons_inj name).2 hp)
          have hp₂ : ¬ more <+: rest := fun hp => h₂ ((List.prefix_cons_inj name).2 hp)
          simp only [put, get?, entry?, lookup_changeEntry_self, Option.bind_some]
          rw [ih more _ hp₁ hp₂]
          cases hl : entries.lookup name with
          | some child => simp
          | none =>
            cases more with
            | nil => exact absurd (List.nil_prefix) hp₂
            | cons m ms => simp [emptyDirectory, get?, entry?]
        · simp only [put, get?, entry?, lookup_changeEntry_of_ne hn]

end Lemmas

end Concordance
