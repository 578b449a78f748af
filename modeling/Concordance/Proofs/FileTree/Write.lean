import Mathlib
import Concordance.FileTree.Access
import Concordance.Proofs.Text.Occurrence

/-!
What a write changes in a tree of files.

A node has a face: the content of a file, the target of a link, or that it is a directory. A walk that
ends well is described by the relation `Walks`, step by step. Main statements: `faceAt_putText` (a
write changes the face of one location), `walk_congr` (where a path leads depends on the kinds of
nodes only, not on the contents of files) and `readText_writeText` (a text that was written to a path
is read back from it).
-/

namespace Concordance

open Text

/-- What a node is by itself. -/
inductive Face where
  | file (content : ByteArray)
  | link (target : List Char)
  | directory
deriving DecidableEq

namespace Face

/-- The face without the content of a file. -/
def shape : Face → Face
  | .file _ => .file .empty
  | .link target => .link target
  | .directory => .directory

end Face

namespace FileNode

/-- The face of a node. -/
def face : FileNode → Face
  | .file content => .file content
  | .link target => .link target
  | .directory _ => .directory

/-- The face of the node at a location, if there is one. -/
def faceAt (top : FileNode) (l : Location) : Option Face :=
  (top.get? l).map face

/-- The face at a location without the content of a file. -/
def shapeAt (top : FileNode) (l : Location) : Option Face :=
  (top.faceAt l).map Face.shape

end FileNode

/-- The location that a path leads to, be there a node or not. -/
def Resolved.location : Resolved → Location
  | .found place => place
  | .missing directory name => directory ++ [name]

/-- The end of a walk as the tree has it: a node that is no link, or a free name in a directory. -/
def Resolved.StandsIn (top : FileNode) : Resolved → Prop
  | .found place => ∃ shape, top.shapeAt place = some shape ∧ ∀ target, shape ≠ .link target
  | .missing directory name =>
    top.shapeAt directory = some .directory ∧ top.shapeAt (directory ++ [name]) = none

open FileNode

section Get

variable {top : FileNode}

theorem get?_append (top : FileNode) (a b : Location) :
    top.get? (a ++ b) = (top.get? a).bind fun node => node.get? b := by
  induction a generalizing top with
  | nil => rfl
  | cons name a ih =>
    rw [List.cons_append, get?, get?]
    cases top.entry? name with
    | none => rfl
    | some child => exact ih child

theorem get?_concat {l : Location} {entries : List (List Char × FileNode)}
    (h : top.get? l = some (.directory entries)) (name : List Char) :
    top.get? (l ++ [name]) = entries.lookup name := by
  rw [get?_append, h]
  cases hentry : entries.lookup name <;> simp [get?, entry?, hentry]

theorem faceAt_eq_directory_iff {l : Location} :
    top.faceAt l = some .directory ↔ ∃ entries, top.get? l = some (.directory entries) := by
  rw [faceAt]
  cases top.get? l with
  | none => simp
  | some node => cases node <;> simp [face]

theorem faceAt_eq_file_iff {l : Location} {content : ByteArray} :
    top.faceAt l = some (.file content) ↔ top.get? l = some (.file content) := by
  rw [faceAt]
  cases top.get? l with
  | none => simp
  | some node => cases node <;> simp [face]

theorem shapeAt_eq_directory_iff {l : Location} :
    top.shapeAt l = some .directory ↔ top.faceAt l = some .directory := by
  rw [shapeAt]
  cases top.faceAt l with
  | none => simp
  | some face => cases face <;> simp [Face.shape]

/-- What lies above a node is a directory. -/
theorem faceAt_of_get?_append {l below : Location} (hbelow : below ≠ []) {node : FileNode}
    (h : top.get? (l ++ below) = some node) : top.faceAt l = some .directory := by
  rw [get?_append] at h
  obtain ⟨above, habove, hnode⟩ := Option.bind_eq_some_iff.mp h
  obtain ⟨name, rest, rfl⟩ := List.exists_cons_of_ne_nil hbelow
  rw [faceAt, habove]
  cases above with
  | file content => simp [get?, entry?] at hnode
  | link target => simp [get?, entry?] at hnode
  | directory entries => rfl

/-- Nothing lies below what is no directory. -/
theorem faceAt_append_eq_none {l below : Location} (hbelow : below ≠ [])
    (h : top.faceAt l ≠ some .directory) : top.faceAt (l ++ below) = none := by
  by_contra hne
  obtain ⟨face, hface⟩ := Option.ne_none_iff_exists'.mp hne
  obtain ⟨node, hnode, -⟩ := Option.map_eq_some_iff.mp hface
  exact h (faceAt_of_get?_append hbelow hnode)

/-- Where a file lies, the part above its name is a directory. -/
theorem faceAt_dropLast {l : Location} (hne : l ≠ []) (h : (top.faceAt l).isSome) :
    top.faceAt l.dropLast = some .directory := by
  obtain ⟨face, hface⟩ := Option.isSome_iff_exists.mp h
  obtain ⟨node, hnode, -⟩ := Option.map_eq_some_iff.mp hface
  rw [← List.dropLast_append_getLast hne] at hnode
  exact faceAt_of_get?_append (List.cons_ne_nil _ _) hnode

theorem shapeAt_dropLast {l : Location} (h : top.shapeAt l = some .directory) :
    top.shapeAt l.dropLast = some .directory := by
  cases hl : l with
  | nil => rwa [hl] at h
  | cons name rest =>
    rw [← hl]
    rw [shapeAt_eq_directory_iff] at h ⊢
    exact faceAt_dropLast (by simp [hl]) (by simp [h])

theorem shapeAt_nil {l : Location} (h : top.shapeAt l = some .directory) :
    top.shapeAt [] = some .directory := by
  cases l with
  | nil => exact h
  | cons name rest =>
    rw [shapeAt_eq_directory_iff, faceAt_eq_directory_iff] at h
    obtain ⟨entries, hentries⟩ := h
    exact shapeAt_eq_directory_iff.mpr
      (faceAt_of_get?_append (l := []) (List.cons_ne_nil name rest) hentries)

/-- A file put into a directory, where there is nothing or another file, changes the face of its own
location only. -/
theorem faceAt_put_file {directory : Location} {name : List Char} (content : ByteArray)
    (hdirectory : top.faceAt directory = some .directory)
    (hplace : top.faceAt (directory ++ [name]) ≠ some .directory) (l : Location) :
    (top.put (directory ++ [name]) (.file content)).faceAt l =
      if l = directory ++ [name] then some (.file content) else top.faceAt l := by
  obtain ⟨entries, hentries⟩ := faceAt_eq_directory_iff.mp hdirectory
  have hput := get?_put_self (.file content) directory name entries top hentries
  split
  · next h => rw [h, faceAt, hput]; rfl
  next hl =>
  by_cases habove : l <+: directory ++ [name]
  · -- Above the new file there are directories before and after.
    obtain ⟨below, hbelow⟩ := habove
    have hne : below ≠ [] := by
      rintro rfl
      exact hl (by rw [← hbelow, List.append_nil])
    rw [← hbelow] at hput ⊢
    rw [faceAt_of_get?_append hne hput]
    have hprefix : l <+: directory := by
      rw [← List.dropLast_append_getLast hne, ← List.append_assoc] at hbelow
      exact ⟨below.dropLast, (List.append_inj' hbelow rfl).1⟩
    obtain ⟨middle, rfl⟩ := hprefix
    cases middle with
    | nil => rw [← hdirectory, List.append_nil]
    | cons first rest => exact (faceAt_of_get?_append (List.cons_ne_nil _ _) hentries).symm
  by_cases hbelow : directory ++ [name] <+: l
  · -- Below the new file there is nothing before and after.
    obtain ⟨below, rfl⟩ := hbelow
    have hne : below ≠ [] := by
      rintro rfl
      exact hl (List.append_nil _)
    rw [faceAt_append_eq_none hne hplace, faceAt_append_eq_none hne]
    rw [faceAt, hput]
    simp [face]
  · rw [faceAt, get?_put_of_ne _ _ _ _ hbelow habove, ← faceAt]

end Get

namespace FileSystem

section Walk

variable {purpose : Purpose} {top other : FileNode}

/-- One step of a walk, by the faces of the nodes it looks at. -/
theorem walk_cons (purpose : Purpose) (top : FileNode) (links : Nat) (directory : Location)
    (name : List Char) (rest : List (List Char)) :
    walk purpose top links directory (name :: rest) =
      if top.shapeAt directory ≠ some .directory then .error .notADirectory
      else if name = [] ∨ name = ['.'] then walk purpose top links directory rest
      else if name = ['.', '.'] then walk purpose top links directory.dropLast rest
      else if purpose = .make ∧ rest = [[]] then .error .isADirectory
      else if maxName < byteLength name then .error .nameTooLong
      else
        match top.shapeAt (directory ++ [name]) with
        | none => if rest.isEmpty then .ok (.missing directory name) else .error .notFound
        | some (.link target) =>
          match links with
          | 0 => .error .tooManyLinks
          | links + 1 =>
            if target.isEmpty then .error .notFound
            else walk purpose top links (start directory target) (steps target ++ rest)
        | some _ => walk purpose top links (directory ++ [name]) rest := by
  rw [walk]
  by_cases hdirectory : top.shapeAt directory = some .directory
  · obtain ⟨entries, hentries⟩ :=
      faceAt_eq_directory_iff.mp (shapeAt_eq_directory_iff.mp hdirectory)
    rw [if_neg (not_not.mpr hdirectory), hentries, shapeAt, faceAt, get?_concat hentries]
    cases hlookup : entries.lookup name with
    | none => simp only [hlookup, Option.map_none]
    | some node =>
      cases node with
      | file content => simp only [hlookup, Option.map_some, face, Face.shape]
      | link target =>
        cases links <;> simp only [hlookup, Option.map_some, face, Face.shape]
      | directory entries => simp only [hlookup, Option.map_some, face, Face.shape]
  · rw [if_pos hdirectory]
    split
    · next entries hentries =>
      exact absurd (shapeAt_eq_directory_iff.mpr (faceAt_eq_directory_iff.mpr ⟨entries, hentries⟩))
        hdirectory
    · rfl

/-- A walk goes on with fewer names or, behind a link, with fewer links. -/
theorem walk_induction {motive : Nat → Location → List (List Char) → Prop}
    (nil : ∀ links directory, motive links directory [])
    (cons : ∀ links directory name rest, (∀ directory, motive links directory rest) →
      (∀ fewer directory names, links = fewer + 1 → motive fewer directory names) →
      motive links directory (name :: rest))
    (links : Nat) (directory : Location) (names : List (List Char)) :
    motive links directory names := by
  induction links generalizing directory names with
  | zero =>
    induction names generalizing directory with
    | nil => exact nil 0 directory
    | cons name rest ih => exact cons 0 directory name rest ih (fun _ _ _ h => by cases h)
  | succ links ihLinks =>
    induction names generalizing directory with
    | nil => exact nil _ directory
    | cons name rest ih =>
      exact cons _ directory name rest ih (fun _ _ _ h => by cases h; exact ihLinks _ _)

/-- Where names lead depends on the shapes of the nodes only. -/
theorem walk_congr (h : top.shapeAt = other.shapeAt) (links : Nat) (directory : Location)
    (names : List (List Char)) :
    walk purpose top links directory names = walk purpose other links directory names := by
  induction links, directory, names using walk_induction with
  | nil => rw [walk, walk]
  | cons links directory name rest ihNames ihLinks =>
    cases links with
    | zero => simp only [walk_cons, h, ihNames]
    | succ links => simp only [walk_cons, h, ihNames, ihLinks links _ _ rfl]

/-- A name is looked up in a directory: it is not passed over, and nothing forbids it. -/
structure LooksUp (purpose : Purpose) (top : FileNode) (directory : Location) (name : List Char)
    (rest : List (List Char)) : Prop where
  isDirectory : top.shapeAt directory = some .directory
  notHere : ¬ (name = [] ∨ name = ['.'])
  notAbove : name ≠ ['.', '.']
  allowed : ¬ (purpose = .make ∧ rest = [[]])
  short : ¬ maxName < byteLength name

/-- How names lead from a directory to where a walk ends, with the number of links that may still be
followed. -/
inductive Walks (purpose : Purpose) (top : FileNode) :
    Nat → Location → List (List Char) → Resolved → Prop
  | done {links directory} : Walks purpose top links directory [] (.found directory)
  | here {links directory name rest ended} (hdirectory : top.shapeAt directory = some .directory)
      (hname : name = [] ∨ name = ['.']) (hrest : Walks purpose top links directory rest ended) :
      Walks purpose top links directory (name :: rest) ended
  | above {links directory rest ended} (hdirectory : top.shapeAt directory = some .directory)
      (hrest : Walks purpose top links directory.dropLast rest ended) :
      Walks purpose top links directory (['.', '.'] :: rest) ended
  | free {links directory name} (hname : LooksUp purpose top directory name [])
      (hshape : top.shapeAt (directory ++ [name]) = none) :
      Walks purpose top links directory [name] (.missing directory name)
  | down {links directory name rest ended shape} (hname : LooksUp purpose top directory name rest)
      (hshape : top.shapeAt (directory ++ [name]) = some shape) (hlink : ∀ target, shape ≠ .link target)
      (hrest : Walks purpose top links (directory ++ [name]) rest ended) :
      Walks purpose top links directory (name :: rest) ended
  | through {links directory name rest ended target} (hname : LooksUp purpose top directory name rest)
      (hshape : top.shapeAt (directory ++ [name]) = some (.link target)) (htarget : target ≠ [])
      (hrest : Walks purpose top links (start directory target) (steps target ++ rest) ended) :
      Walks purpose top (links + 1) directory (name :: rest) ended

theorem LooksUp.walk_eq {links : Nat} {directory : Location} {name : List Char}
    {rest : List (List Char)} (h : LooksUp purpose top directory name rest) :
    walk purpose top links directory (name :: rest) =
      match top.shapeAt (directory ++ [name]) with
      | none => if rest.isEmpty then .ok (.missing directory name) else .error .notFound
      | some (.link target) =>
        match links with
        | 0 => .error .tooManyLinks
        | links + 1 =>
          if target.isEmpty then .error .notFound
          else walk purpose top links (start directory target) (steps target ++ rest)
      | some _ => walk purpose top links (directory ++ [name]) rest := by
  rw [walk_cons, if_neg (not_not.mpr h.isDirectory), if_neg h.notHere, if_neg h.notAbove,
    if_neg h.allowed, if_neg h.short]

theorem walks_of_walk {ended : Resolved} {links : Nat} {directory : Location}
    {names : List (List Char)} (h : walk purpose top links directory names = .ok ended) :
    Walks purpose top links directory names ended := by
  induction links, directory, names using walk_induction with
  | nil links directory =>
    rw [walk] at h
    cases h
    exact .done
  | cons links directory name rest ihNames ihLinks =>
    rw [walk_cons] at h
    split at h
    · cases h
    next hdirectory =>
    rw [not_not] at hdirectory
    split at h
    · next hhere => exact .here hdirectory hhere (ihNames _ h)
    next hhere =>
    split at h
    · next habove => subst habove; exact .above hdirectory (ihNames _ h)
    next habove =>
    split at h
    · cases h
    next hallowed =>
    split at h
    · cases h
    next hshort =>
    have hname : LooksUp purpose top directory name rest :=
      ⟨hdirectory, hhere, habove, hallowed, hshort⟩
    split at h
    · next hshape =>
      cases rest with
      | nil => cases h; exact .free hname hshape
      | cons next more => cases h
    · next target hshape =>
      cases links with
      | zero => cases h
      | succ links =>
        simp only at h
        split at h
        · cases h
        · next htarget =>
          exact .through hname hshape (mt List.isEmpty_iff.mpr htarget) (ihLinks links _ _ rfl h)
    · next shape hlink hshape => exact .down hname hshape (fun target => hlink target) (ihNames _ h)

theorem Walks.walk_eq {ended : Resolved} {links : Nat} {directory : Location}
    {names : List (List Char)} (h : Walks purpose top links directory names ended) :
    walk purpose top links directory names = .ok ended := by
  induction h with
  | done => rw [walk]
  | here hdirectory hname _ ih => rw [walk_cons, if_neg (not_not.mpr hdirectory), if_pos hname, ih]
  | above hdirectory _ ih =>
    rw [walk_cons, if_neg (not_not.mpr hdirectory), if_neg (by decide), if_pos rfl, ih]
  | free hname hshape => rw [hname.walk_eq, hshape]; rfl
  | @down links directory name rest ended shape hname hshape hlink _ ih =>
    rw [hname.walk_eq, hshape]
    cases shape with
    | file content => exact ih
    | directory => exact ih
    | link target => exact absurd rfl (hlink target)
  | through hname hshape htarget _ ih =>
    rw [hname.walk_eq, hshape]
    simp only [List.isEmpty_iff, htarget, if_false, ih]

theorem standsIn_of_directory {place : Location} (h : top.shapeAt place = some .directory) :
    (Resolved.found place).StandsIn top :=
  ⟨.directory, h, fun _ => nofun⟩

theorem shapeAt_start {directory : Location} (h : top.shapeAt directory = some .directory)
    (target : List Char) : top.shapeAt (start directory target) = some .directory := by
  unfold start
  split
  · exact shapeAt_nil h
  · exact h

theorem Walks.standsIn {ended : Resolved} {links : Nat} {directory : Location}
    {names : List (List Char)} (h : Walks purpose top links directory names ended)
    (hstart : names = [] → (Resolved.found directory).StandsIn top) : ended.StandsIn top := by
  induction h with
  | done => exact hstart rfl
  | here hdirectory _ _ ih => exact ih fun _ => standsIn_of_directory hdirectory
  | above hdirectory _ ih => exact ih fun _ => standsIn_of_directory (shapeAt_dropLast hdirectory)
  | free hname hshape => exact ⟨hname.isDirectory, hshape⟩
  | down _ hshape hlink _ ih => exact ih fun _ => ⟨_, hshape, hlink⟩
  | through hname _ _ _ ih =>
    exact ih fun _ => standsIn_of_directory (shapeAt_start hname.isDirectory _)

theorem Walks.isDirectory_top {ended : Resolved} {links : Nat} {directory : Location}
    {names : List (List Char)} (h : Walks purpose top links directory names ended)
    (hnames : names ≠ []) : top.shapeAt [] = some .directory := by
  cases h with
  | done => exact absurd rfl hnames
  | here hdirectory | above hdirectory => exact shapeAt_nil hdirectory
  | free hname | down hname | through hname => exact shapeAt_nil hname.isDirectory

/-- A walk that ends somewhere in a tree ends there in a tree that has the same nodes and maybe more,
if its end is there and no link. -/
theorem Walks.mono {ended : Resolved}
    (hmore : ∀ l shape, top.shapeAt l = some shape → other.shapeAt l = some shape)
    {shape : Face} (hend : other.shapeAt ended.location = some shape)
    (hlink : ∀ target, shape ≠ .link target) {links : Nat} {directory : Location}
    {names : List (List Char)} (h : Walks purpose top links directory names ended) :
    Walks .find other links directory names (.found ended.location) := by
  have hlooks : ∀ {directory name rest}, LooksUp purpose top directory name rest →
      LooksUp .find other directory name rest := fun hname =>
    { hname with isDirectory := hmore _ _ hname.isDirectory, allowed := fun hmake => nomatch hmake.1 }
  induction h with
  | done => exact .done
  | here hdirectory hname _ ih => exact .here (hmore _ _ hdirectory) hname (ih hend)
  | above hdirectory _ ih => exact .above (hmore _ _ hdirectory) (ih hend)
  | free hname _ => exact .down (hlooks hname) hend hlink .done
  | down hname hshape hnone _ ih => exact .down (hlooks hname) (hmore _ _ hshape) hnone (ih hend)
  | through hname hshape htarget _ ih =>
    exact .through (hlooks hname) (hmore _ _ hshape) htarget (ih hend)

end Walk

section Text

/-- A path that is not empty has a name in it or a slash at its end. -/
theorem steps_ne_nil {path : List Char} (h : path ≠ []) : steps path ≠ [] := by
  intro hsteps
  rw [steps, List.append_eq_nil_iff, List.filter_eq_nil_iff] at hsteps
  obtain ⟨hpieces, hlast⟩ := hsteps
  have hslash : ∀ c ∈ path, c = '/' := by
    intro c hc
    have hjoin : ['/'].intercalate (path.splitOn '/') = path := List.intercalate_splitOn '/'
    rw [← hjoin] at hc
    rcases mem_intercalate hc with h | ⟨piece, hpiece, hc⟩
    · exact h
    · have hempty := hpieces piece hpiece
      simp only [Bool.not_eq_true', List.isEmpty_eq_false_iff, not_not] at hempty
      simp [hempty] at hc
  rw [List.getLast?_eq_some_getLast h, hslash _ (List.getLast_mem h)] at hlast
  simp at hlast

variable {fs after : FileSystem} {path text : String}

/-- What the system finds for a path stands in the tree, whose top is a directory. -/
theorem resolve_standsIn {purpose : Purpose} {ended : Resolved}
    (h : fs.resolve purpose path = .ok ended) :
    ended.StandsIn fs.top ∧ fs.top.shapeAt [] = some .directory := by
  rw [resolve] at h
  split at h
  · cases h
  rw [follow] at h
  split at h
  · cases h
  next hpath =>
  have hsteps := steps_ne_nil (mt List.isEmpty_iff.mpr hpath)
  have hwalks := walks_of_walk h
  exact ⟨hwalks.standsIn fun hnil => absurd hnil hsteps, hwalks.isDirectory_top hsteps⟩

theorem writeText_eq (h : fs.writeText path text = .ok after) :
    ∃ ended, fs.resolve .make path = .ok ended ∧ after = fs.putText ended.location text ∧
      fs.top.shapeAt ended.location ≠ some .directory := by
  rw [writeText] at h
  split at h
  · cases h
  · next directory name hresolve =>
    cases h
    refine ⟨_, hresolve, rfl, ?_⟩
    rw [Resolved.location, (resolve_standsIn hresolve).1.2]
    exact nofun
  · next place hresolve =>
    split at h
    · cases h
    · next hplace =>
      cases h
      refine ⟨_, hresolve, rfl, fun hshape => ?_⟩
      obtain ⟨entries, hentries⟩ :=
        faceAt_eq_directory_iff.mp (shapeAt_eq_directory_iff.mp hshape)
      exact hplace entries hentries

/-- Where a file can be written, a name stands in a directory, and nothing or a file is there. -/
theorem exists_concat_of_standsIn {ended : Resolved} {top : FileNode} (h : ended.StandsIn top)
    (htop : top.shapeAt [] = some .directory) (hplace : top.shapeAt ended.location ≠ some .directory) :
    ∃ directory name, ended.location = directory ++ [name] ∧
      top.faceAt directory = some .directory ∧
      ∀ shape, top.shapeAt ended.location = some shape → shape = .file .empty := by
  cases ended with
  | missing directory name =>
    refine ⟨directory, name, rfl, shapeAt_eq_directory_iff.mp h.1, fun shape hshape => ?_⟩
    rw [Resolved.location, h.2] at hshape
    cases hshape
  | found place =>
    obtain ⟨shape, hshape, hlink⟩ := h
    rw [Resolved.location] at hplace ⊢
    have hne : place ≠ [] := by
      rintro rfl
      exact hplace htop
    have hface : (top.faceAt place).isSome := by
      obtain ⟨face, hface, -⟩ := Option.map_eq_some_iff.mp hshape
      simp [hface]
    refine ⟨place.dropLast, place.getLast hne, (List.dropLast_append_getLast hne).symm,
      faceAt_dropLast hne hface, fun other hother => ?_⟩
    obtain ⟨face, -, hface⟩ := Option.map_eq_some_iff.mp hother
    obtain rfl : shape = other := Option.some.inj (hshape.symm.trans hother)
    cases face with
    | file content => exact hface.symm
    | link target => exact absurd hface.symm (hlink target)
    | directory =>
      rw [← hface] at hother
      exact absurd hother hplace

theorem decode_toUTF8 (text : String) : decode text.toUTF8 = .ok text := by
  have hvalid : text.toUTF8.IsValidUTF8 := text.isValidUTF8
  rw [decode, String.fromUTF8?, dif_pos hvalid]
  rfl

/-- A path that leads somewhere leads there in a tree that has the same nodes and maybe more. -/
theorem find_of_resolve {purpose : Purpose} {ended : Resolved}
    (h : fs.resolve purpose path = .ok ended)
    (hmore : ∀ l shape, fs.top.shapeAt l = some shape → after.top.shapeAt l = some shape)
    (hend : after.top.shapeAt ended.location = some (.file .empty)) (hhere : after.here = fs.here) :
    after.find path = .ok ended.location := by
  rw [resolve] at h
  split at h
  · cases h
  next hlong =>
  rw [follow] at h
  split at h
  · cases h
  next hpath =>
  have hwalk := ((walks_of_walk h).mono hmore hend fun _ => nofun).walk_eq
  rw [find, resolve, if_neg hlong, follow, if_neg hpath, hhere, hwalk]
  rfl

/-- A text that was written to a path is found and read there. -/
theorem readText_writeText (h : fs.writeText path text = .ok after) :
    after.hasNode path = true ∧ after.readText path = .ok text := by
  obtain ⟨ended, hresolve, rfl, hplace⟩ := writeText_eq h
  obtain ⟨hstands, htop⟩ := resolve_standsIn hresolve
  obtain ⟨directory, name, hlocation, hdirectory, hfile⟩ :=
    exists_concat_of_standsIn hstands htop hplace
  have hface : ∀ l, (fs.putText ended.location text).top.faceAt l =
      if l = ended.location then some (.file text.toUTF8) else fs.top.faceAt l := by
    intro l
    rw [hlocation] at hplace ⊢
    exact faceAt_put_file text.toUTF8 hdirectory (mt shapeAt_eq_directory_iff.mpr hplace) l
  have hend : (fs.putText ended.location text).top.shapeAt ended.location = some (.file .empty) := by
    rw [shapeAt, hface, if_pos rfl]
    rfl
  have hmore : ∀ l shape, fs.top.shapeAt l = some shape →
      (fs.putText ended.location text).top.shapeAt l = some shape := by
    intro l shape hshape
    by_cases hl : l = ended.location
    · rw [hl] at hshape ⊢
      rw [hend, hfile shape hshape]
    · rw [shapeAt, hface, if_neg hl]
      exact hshape
  have hfind := find_of_resolve hresolve hmore hend rfl
  have hnode := faceAt_eq_file_iff.mp ((hface ended.location).trans (if_pos rfl))
  constructor
  · simp [hasNode, node?, hfind, hnode]
  · have hbytes : (fs.putText ended.location text).bytesAt ended.location = .ok text.toUTF8 := by
      rw [bytesAt, hnode]
    rw [readText, readBytes, hfind]
    exact (congrArg (·.bind decode) hbytes).trans (decode_toUTF8 text)

end Text

end FileSystem

end Concordance
