import Concordance.FileFilter.Collect
import Concordance.Proofs.FileTree.Leaves
import Concordance.Proofs.FileTree.Write
import Concordance.Proofs.Path

/-!
Which files the walk for a scan finds.

The walk goes past directories that are never scanned, and every other file is asked for by its path.
Both tests read the same names: below the root, and never the name of the root itself. So a file that
the walk goes past would be turned away anyway, and the walk loses nothing. Main statement:
`collectWith_leavesBelow`, for any rules of ignore files and any patterns.
-/

namespace Concordance

open Text

section Written

/-- The path of a location is read as the parts of its names. -/
theorem ofString_path (l : Location) : Path.ofString l.path = ⟨true, l.flatMap nameParts⟩ := by
  rw [Path.ofString, Location.path, String.toList_ofList, Path.ofChars_of_absolute rfl, nameParts_cons,
    nameParts_intercalate]

theorem nameParts_of_isInternalName {name : List Char} (h : isInternalName name = true) :
    nameParts name = [.name name] := by
  obtain ⟨s, hs, rfl⟩ : ∃ s ∈ internalDirectories, s.toList = name := by
    refine ⟨String.ofList name, by simpa [isInternalName] using h, String.toList_ofList⟩
  have hall : ∀ s ∈ internalDirectories, nameParts s.toList = [.name s.toList] := by decide
  exact hall s hs

/-- A location below another is read as what lies below. -/
theorem below?_path (root below : Location) :
    (Path.ofString root.path).below? (Path.ofString (Location.path (root ++ below))) =
      some ⟨false, below.flatMap nameParts⟩ := by
  rw [ofString_path, ofString_path, Path.below?]
  simp

end Written

namespace FileFilter

variable {f : FileFilter} {fs : FileSystem} {root : Location} {ignored selected : String → Bool}

/-- A filter that is made for a root that is there holds its path without links. -/
theorem root_of_make {path : String} {includes excludes : List String}
    (h : make fs path includes excludes = .ok f) (hlocate : fs.locate path = .ok root) :
    f.root = root.path := by
  unfold make at h
  rw [hlocate] at h
  dsimp only at h
  split at h
  · cases h
  · cases h
  · obtain rfl := Except.ok.inj h
    rfl

/-- A file that is not there gives no rules. -/
theorem rulesIn_of_find_eq_error {name : String} {rootPath : String} {e : SystemError}
    (h : fs.find (joinPath rootPath name) = .error e) : rulesIn fs rootPath name = [] := by
  have hbytes : fs.readBytes (joinPath rootPath name) = .error e := by
    rw [FileSystem.readBytes, h]
    rfl
  unfold rulesIn
  rw [hbytes]

section Skipped

/-- A file with the name of a directory that is never scanned in its path below the root is never
scanned. -/
theorem isInternal_of_mem (hroot : f.root = root.path) {below : Location} {name : List Char}
    (hname : name ∈ below) (hinternal : isInternalName name = true) :
    f.isInternal (Location.path (root ++ below)) = true := by
  have hpart : PathPart.name name ∈ below.flatMap nameParts := by
    refine List.mem_flatMap.mpr ⟨name, hname, ?_⟩
    rw [nameParts_of_isInternalName hinternal]
    exact List.mem_singleton_self _
  simp only [isInternal, hroot, below?_path, Option.getD_some, Bool.or_eq_true, List.any_eq_true]
  exact Or.inr ⟨.name name, hpart, hinternal⟩

/-- Why the path takes no part in a scan, by any rules that ignore paths and any choice of them. -/
def skipReasonWith (f : FileFilter) (fs : FileSystem) (ignored selected : String → Bool)
    (path : String) : Option SkipReason :=
  if !fs.isFile path then some .notAFile
  else if f.isInternal path then some .ignoredInternal
  else if ignored path then some .ignoredByGitignore
  else if !f.hasExtension path then some .unsupportedLanguage
  else if !selected path then some .excludedByGlob
  else none

/-- What is said about a path by any rules and any choice. -/
def skipDiagnosticWith (f : FileFilter) (fs : FileSystem) (ignored selected : String → Bool)
    (path : String) : Option Diagnostic :=
  match f.skipReasonWith fs ignored selected path with
  | none => none
  | some .unsupportedLanguage => none
  | some reason => some (.skipped (relativePath f.root path) reason)

/-- The paths that take part, and what is to be said about the others, by any rules and any choice. -/
def collectWith (f : FileFilter) (fs : FileSystem) (ignored selected : String → Bool) :
    List String × List Diagnostic :=
  match fs.locate f.root with
  | .error e =>
    let message := "IO error for operation on " ++ f.root ++ ": " ++ e.message
    ([], [.error (relativePath f.root f.root) .read message])
  | .ok root =>
    let paths := walk fs root
    ((paths.filter fun p => (f.skipReasonWith fs ignored selected p).isNone).mergeSort pathUpTo,
      Diagnostic.sorted (paths.filterMap (f.skipDiagnosticWith fs ignored selected)))

/-- The files of a filter are those by its own rules and patterns. -/
theorem collectWith_own (f : FileFilter) (fs : FileSystem) :
    f.collectWith fs f.isIgnoredByRules f.isSelected = f.collect fs :=
  rfl

theorem isSome_skipReasonWith_of_mem (hroot : f.root = root.path) {below : Location}
    {name : List Char} (hname : name ∈ below) (hinternal : isInternalName name = true) :
    (f.skipReasonWith fs ignored selected (Location.path (root ++ below))).isSome = true := by
  unfold skipReasonWith
  rw [isInternal_of_mem hroot hname hinternal]
  split <;> rfl

theorem skipDiagnosticWith_eq_some_iff {path : String} {d : Diagnostic} :
    f.skipDiagnosticWith fs ignored selected path = some d ↔
      ∃ reason, f.skipReasonWith fs ignored selected path = some reason ∧
        reason ≠ .unsupportedLanguage ∧ d = .skipped (relativePath f.root path) reason := by
  unfold skipDiagnosticWith
  cases f.skipReasonWith fs ignored selected path with
  | none => simp
  | some reason => cases reason <;> simp [eq_comm]

end Skipped

section Walk

theorem isPruned_append (root front : Location) :
    isPruned root (root ++ front) = front.getLast?.any isInternalName := by
  cases hfront : front.getLast? with
  | none =>
    rw [List.getLast?_eq_none_iff.mp hfront]
    simp [isPruned]
  | some name =>
    have hne : front ≠ [] := by
      rintro rfl
      cases hfront
    simp [isPruned, hne, hfront]

/-- No directory above the end is pruned exactly if none of the names above it is one of them. -/
theorem forall_isPruned_iff {below : Location} :
    (∀ front, front <+: below → front ≠ below → isPruned root (root ++ front) = false) ↔
      ∀ name ∈ below.dropLast, isInternalName name = false := by
  simp only [isPruned_append]
  constructor
  · intro h name hname
    obtain ⟨front, back, hsplit⟩ := List.append_of_mem hname
    have hway : front ++ [name] <+: below.dropLast := ⟨back, by simp [hsplit]⟩
    have hlength : (front ++ [name]).length < below.length := by
      have hle := hway.length_le
      have hpos : 0 < below.dropLast.length := List.length_pos_of_mem hname
      rw [List.length_dropLast] at hle hpos
      omega
    have hfree := h (front ++ [name]) (hway.trans (List.dropLast_prefix _)) fun heq =>
      Nat.lt_irrefl _ (heq ▸ hlength)
    simpa using hfree
  · intro h front hway hne
    cases hlast : front.getLast? with
    | none => rfl
    | some name =>
      refine h name ?_
      obtain ⟨back, rfl⟩ := hway
      have hback : back ≠ [] := by
        rintro rfl
        exact hne (List.append_nil _).symm
      rw [List.dropLast_append_of_ne_nil hback]
      exact List.mem_append_left _ (List.mem_of_mem_getLast? hlast)

/-- The walk comes past everything outside the directories that are never scanned. -/
theorem mem_walk_iff {path : String} :
    path ∈ walk fs root ↔ ∃ below, root ++ below ∈ fs.leavesBelow root ∧
      (∀ name ∈ below.dropLast, isInternalName name = false) ∧
        path = Location.path (root ++ below) := by
  simp only [← @forall_isPruned_iff root, FileSystem.mem_leavesBelow_iff,
    List.append_cancel_left_eq]
  unfold walk
  cases fs.top.get? root with
  | none => simp
  | some top =>
    simp only [List.mem_map, FileNode.mem_leaves_iff, Option.some.injEq]
    constructor
    · rintro ⟨⟨l, node⟩, ⟨below, hleaf, hreaches, hkind, hfree⟩, rfl⟩
      exact ⟨below, ⟨top, below, node, rfl, rfl, hreaches, hkind⟩, hfree, congrArg _ hleaf⟩
    · rintro ⟨below, ⟨_, _, node, rfl, rfl, hreaches, hkind⟩, hfree, rfl⟩
      exact ⟨(root ++ below, node), ⟨below, rfl, hreaches, hkind, hfree⟩, rfl⟩

/-- What the walk goes past takes no part in a scan. -/
theorem filter_walk (hroot : f.root = root.path) :
    (walk fs root).filter (fun p => (f.skipReasonWith fs ignored selected p).isNone) =
      ((fs.leavesBelow root).map Location.path).filter
        fun p => (f.skipReasonWith fs ignored selected p).isNone := by
  unfold walk FileSystem.leavesBelow
  cases fs.top.get? root with
  | none => rfl
  | some node =>
    simp only [List.map_map, List.filter_map]
    congr 1
    apply FileNode.filter_leaves
    intro front hfront hpruned leaf hleaf
    obtain ⟨way, rfl⟩ := hfront
    obtain ⟨rest, hrest⟩ := hleaf
    obtain ⟨name, hlast, hinternal⟩ : ∃ name, way.getLast? = some name ∧
        isInternalName name = true := by
      rw [isPruned_append] at hpruned
      simpa [Option.any_eq_true] using hpruned
    have hskipped : (f.skipReasonWith fs ignored selected
        (Location.path (root ++ (way ++ rest)))).isSome = true :=
      isSome_skipReasonWith_of_mem hroot
        (List.mem_append_left rest (List.mem_of_mem_getLast? hlast)) hinternal
    rw [← List.append_assoc, hrest] at hskipped
    simpa using hskipped

end Walk

theorem pathUpTo_total (a b : String) : (pathUpTo a b || pathUpTo b a) = true := by
  simpa [pathUpTo] using Path.le_total (Path.ofString a) (Path.ofString b)

theorem pathUpTo_trans (a b c : String) (hab : pathUpTo a b = true) (hbc : pathUpTo b c = true) :
    pathUpTo a c = true :=
  Path.le_trans hab hbc

/-- For a tree whose root is there, and whatever the rules of ignore files and the patterns are: the
files of the walk are those of the whole tree that take part, in order, and something is said of
what lies outside the directories that are never scanned exactly if it takes no part for another
reason than its extension. -/
theorem collectWith_leavesBelow (hlocate : fs.locate f.root = .ok root) (hroot : f.root = root.path)
    (ignored selected : String → Bool) :
    (f.skipReasonWith fs f.isIgnoredByRules f.isSelected = f.skipReason? fs ∧
      f.collectWith fs f.isIgnoredByRules f.isSelected = f.collect fs) ∧
    (f.collectWith fs ignored selected).1 =
      (((fs.leavesBelow root).map Location.path).filter fun p =>
        (f.skipReasonWith fs ignored selected p).isNone).mergeSort pathUpTo ∧
    (f.collectWith fs ignored selected).1.Pairwise (pathUpTo · ·) ∧
    ∀ d, d ∈ (f.collectWith fs ignored selected).2 ↔
      ∃ below, root ++ below ∈ fs.leavesBelow root ∧
        (∀ name ∈ below.dropLast, isInternalName name = false) ∧
        ∃ reason, f.skipReasonWith fs ignored selected (Location.path (root ++ below)) =
            some reason ∧
          reason ≠ .unsupportedLanguage ∧
            d = .skipped (relativePath f.root (Location.path (root ++ below))) reason := by
  have hcollect : f.collectWith fs ignored selected =
      (((walk fs root).filter fun p =>
          (f.skipReasonWith fs ignored selected p).isNone).mergeSort pathUpTo,
        Diagnostic.sorted ((walk fs root).filterMap (f.skipDiagnosticWith fs ignored selected))) := by
    rw [collectWith, hlocate]
  refine ⟨⟨rfl, rfl⟩, ?_, ?_, fun d => ?_⟩
  · rw [hcollect, filter_walk hroot]
  · rw [hcollect]
    exact List.pairwise_mergeSort pathUpTo_trans pathUpTo_total _
  · rw [hcollect, Diagnostic.sorted, List.mem_mergeSort, List.mem_filterMap]
    simp only [mem_walk_iff, skipDiagnosticWith_eq_some_iff]
    constructor
    · rintro ⟨_, ⟨below, hbelow, hfree, rfl⟩, hreason⟩
      exact ⟨below, hbelow, hfree, hreason⟩
    · rintro ⟨below, hbelow, hfree, hreason⟩
      exact ⟨_, ⟨below, hbelow, hfree, rfl⟩, hreason⟩

/-- A project in a directory with the name of one that is never scanned, and such a directory in it. -/
private def vendoredTree : FileSystem :=
  ⟨.directory [("vendor".toList, .directory [
    ("a.js".toList, .file "f();\n".toUTF8),
    ("c.md".toList, .file "f\n".toUTF8),
    ("d.min.js".toList, .file "f();\n".toUTF8),
    ("node_modules".toList, .directory [("b.js".toList, .file "f();\n".toUTF8)])])], []⟩

/-- The files of the project with the usual extensions. -/
private def vendoredFilter : FileFilter where
  root := "/vendor"

private theorem locate_vendor : vendoredTree.locate "/vendor" = .ok ["vendor".toList] := by
  have hsteps : FileSystem.steps "/vendor".toList = ["vendor".toList] := by decide
  rw [FileSystem.locate, FileSystem.follow, if_neg (by decide), hsteps]
  simp only [FileSystem.walk_cons, FileSystem.walk]
  decide

/-- Of four names in the directory, two are those of files and two lead nowhere. -/
private theorem find_vendored {name : String}
    (h : name = "a.js" ∨ name = "d.min.js" ∨ name = ".gitignore" ∨ name = ".ignore") :
    vendoredTree.find (Location.path ["vendor".toList, name.toList]) =
      if name = "a.js" ∨ name = "d.min.js" then .ok ["vendor".toList, name.toList]
      else .error .notFound := by
  have hlong : ¬ FileSystem.maxPath <
      byteLength (Location.path ["vendor".toList, name.toList]).toList := by
    rcases h with rfl | rfl | rfl | rfl <;> decide
  have hsteps : FileSystem.steps (Location.path ["vendor".toList, name.toList]).toList =
      ["vendor".toList, name.toList] := by
    rcases h with rfl | rfl | rfl | rfl <;> decide
  have hsome : ¬ (Location.path ["vendor".toList, name.toList]).toList.isEmpty = true := by
    rcases h with rfl | rfl | rfl | rfl <;> decide
  rw [FileSystem.find, FileSystem.resolve, if_neg hlong, FileSystem.follow, if_neg hsome, hsteps]
  simp only [FileSystem.walk_cons, FileSystem.walk]
  rcases h with rfl | rfl | rfl | rfl <;> decide

/-- The filter is the one made for the directory, which has no rules of its own. -/
private theorem make_vendored : make vendoredTree "/vendor" [] [] = .ok vendoredFilter := by
  have hroot : Location.path ["vendor".toList] = "/vendor" := by decide
  have hrules : ∀ name, name = ".gitignore" ∨ name = ".ignore" →
      rulesIn vendoredTree "/vendor" name = [] := by
    intro name h
    have hpath : joinPath "/vendor" name = Location.path ["vendor".toList, name.toList] := by
      rcases h with rfl | rfl <;> decide
    refine rulesIn_of_find_eq_error (e := .notFound) ?_
    rw [hpath, find_vendored (Or.inr (Or.inr h)), if_neg]
    rcases h with rfl | rfl <;> decide
  rw [make, locate_vendor]
  simp only [hroot, readGlobs, hrules _ (Or.inl rfl), hrules _ (Or.inr rfl)]
  rfl

private theorem isFile_vendored {name : String} (h : name = "a.js" ∨ name = "d.min.js") :
    vendoredTree.isFile (Location.path ["vendor".toList, name.toList]) = true := by
  have hknown : name = "a.js" ∨ name = "d.min.js" ∨ name = ".gitignore" ∨ name = ".ignore" :=
    h.imp_right Or.inl
  rw [FileSystem.isFile, FileSystem.node?, find_vendored hknown, if_pos h]
  rcases h with rfl | rfl <;> rfl

private theorem leavesBelow_vendored : (vendoredTree.leavesBelow ["vendor".toList]).map Location.path =
    ["/vendor/a.js", "/vendor/c.md", "/vendor/d.min.js", "/vendor/node_modules/b.js"] := by
  decide

private theorem skipReason?_vendored :
    vendoredFilter.skipReason? vendoredTree "/vendor/a.js" = none ∧
      (vendoredFilter.skipReason? vendoredTree "/vendor/c.md").isSome = true ∧
      vendoredFilter.skipReason? vendoredTree "/vendor/d.min.js" = some .ignoredInternal ∧
      (vendoredFilter.skipReason? vendoredTree "/vendor/node_modules/b.js").isSome = true := by
  have hscanned : vendoredTree.isFile "/vendor/a.js" = true := by
    have hpath : Location.path ["vendor".toList, "a.js".toList] = "/vendor/a.js" := by decide
    exact hpath ▸ isFile_vendored (Or.inl rfl)
  have hsmall : vendoredTree.isFile "/vendor/d.min.js" = true := by
    have hpath : Location.path ["vendor".toList, "d.min.js".toList] = "/vendor/d.min.js" := by decide
    exact hpath ▸ isFile_vendored (Or.inr rfl)
  have hmarkdown : vendoredFilter.hasExtension "/vendor/c.md" = false := by decide
  have hpackage : vendoredFilter.isInternal "/vendor/node_modules/b.js" = true := by decide
  have hignored : vendoredFilter.isInternal "/vendor/d.min.js" = true := by decide
  refine ⟨?_, ?_, ?_, ?_⟩
  · rw [skipReason?, hscanned]
    decide
  · rw [skipReason?, hmarkdown]
    cases vendoredTree.isFile "/vendor/c.md" <;> cases vendoredFilter.isInternal "/vendor/c.md" <;>
      cases vendoredFilter.isIgnoredByRules "/vendor/c.md" <;> rfl
  · rw [skipReason?, hsmall, hignored]
    rfl
  · rw [skipReason?, hpackage]
    cases vendoredTree.isFile "/vendor/node_modules/b.js" <;> rfl

theorem collectWith_leavesBelow_vendored :
    vendoredTree.locate vendoredFilter.root = .ok ["vendor".toList] ∧
      vendoredFilter.root = Location.path ["vendor".toList] ∧
      (vendoredFilter.collect vendoredTree).1 = ["/vendor/a.js"] ∧
      .skipped "d.min.js" .ignoredInternal ∈ (vendoredFilter.collect vendoredTree).2 := by
  have hroot : vendoredFilter.root = Location.path ["vendor".toList] :=
    root_of_make make_vendored locate_vendor
  obtain ⟨hscanned, hmarkdown, hsmall, hpackage⟩ := skipReason?_vendored
  obtain ⟨⟨hskip, hown⟩, hfiles, -, hnotes⟩ := collectWith_leavesBelow (f := vendoredFilter) locate_vendor
    hroot vendoredFilter.isIgnoredByRules vendoredFilter.isSelected
  rw [hown] at hfiles hnotes
  simp only [hskip] at hfiles hnotes
  refine ⟨locate_vendor, hroot, ?_, ?_⟩
  · rw [hfiles, leavesBelow_vendored]
    simp [hscanned, hsmall, Option.isSome_iff_ne_none.mp hmarkdown,
      Option.isSome_iff_ne_none.mp hpackage]
  · refine (hnotes _).mpr ⟨["d.min.js".toList], ?_, by simp, .ignoredInternal, hsmall, by decide, ?_⟩
    · decide
    · decide

end FileFilter

end Concordance
