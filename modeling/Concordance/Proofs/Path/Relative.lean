import Concordance.Project.Read
import Concordance.Proofs.Path

/-!
Paths as they are seen from a root.

A file that is read is known by its path as it is seen from the root of the project. Written after
the root again, that path is the file's own (`ofString_joinPath_getD_below?`), so it stands for one
normal form. Main statement: `relativePath_lossless`.
-/

namespace Concordance

open Text

namespace Path

variable {p root : Path}

section Text

theorem ReadsBack.head?_toString_iff (h : p.ReadsBack) :
    p.toString.toList.head? = some '/' ↔ p.absolute = true := by
  rw [Path.toString, String.toList_ofList]
  constructor
  · intro hhead
    rw [← h.ofChars_chars, ofChars_of_absolute hhead]
  · intro habsolute
    simp [chars, habsolute]

theorem ReadsBack.not_dot_prefix (h : p.ReadsBack) : ¬ ['.', '/'] <+: p.chars := by
  rintro ⟨rest, hrest⟩
  have hsplit : splitSlashes ('.' :: '/' :: rest) = ['.'] :: splitSlashes rest :=
    splitSlashes_append_cons ['.'] rest
  have hcurrent : PathPart.current ∈ p.parts := by
    rw [← h.ofChars_chars, ← hrest]
    simp [ofChars, hsplit]
  exact PathPart.not_readsBack_current (h .current hcurrent)

theorem ReadsBack.normalizeSeparators_toString (h : p.ReadsBack) (hplain : '\\' ∉ p.chars) :
    normalizeSeparators p.toString = p.toString := by
  rw [normalizeSeparators, Path.toString, String.toList_ofList, replaceChar_eq_self hplain,
    stripFront?_eq_none_iff.mpr h.not_dot_prefix, Option.getD_none]

/-- What is written after an absolute path goes on with its parts. -/
theorem ofString_joinPath {base rest : String} (hbase : base.toList.head? = some '/')
    (hrest : rest.toList.head? ≠ some '/') :
    ofString (joinPath base rest) = ⟨true, nameParts base.toList ++ nameParts rest.toList⟩ := by
  obtain ⟨more, hmore⟩ := List.head?_eq_some_iff.mp hbase
  have habsolute : ∀ tail, (base.toList ++ tail).head? = some '/' := fun tail => by simp [hmore]
  have hne : base.isEmpty = false := by
    rw [Bool.eq_false_iff]
    intro hempty
    rw [String.isEmpty_iff.mp hempty] at hbase
    cases hbase
  have hcond : (rest.toList.head? == some '/' || base.isEmpty) = false := by
    simp [hrest, hne]
  rw [joinPath, hcond, if_neg Bool.false_ne_true]
  split
  · -- the slash at the end of the first path is the one between the two
    next hlast =>
    obtain ⟨front, hfront⟩ := List.getLast?_eq_some_iff.mp (beq_iff_eq.mp hlast)
    have hnames : nameParts base.toList = nameParts front := by
      rw [hfront, nameParts_append_cons]
      exact List.append_nil _
    have hjoined : base.toList ++ rest.toList = front ++ '/' :: rest.toList := by simp [hfront]
    rw [ofString, String.toList_append, ofChars_of_absolute (habsolute _), hjoined,
      nameParts_append_cons, hnames]
  · have hjoined : (base ++ "/" ++ rest).toList = base.toList ++ '/' :: rest.toList := by simp
    rw [ofString, hjoined, ofChars_of_absolute (habsolute _), nameParts_append_cons]

end Text

theorem getD_below?_of_absolute (hroot : root.absolute = true) (hp : p.absolute = true) :
    (root.below? p).getD p =
      if root.parts <+: p.parts then ⟨false, p.parts.drop root.parts.length⟩ else p := by
  simp only [below?, hroot, hp, Bool.not_true, Bool.false_and, Bool.false_eq_true, ↓reduceIte,
    BEq.rfl, Bool.true_and, List.isPrefixOf_iff_prefix]
  split <;> rfl

/-- A path that is seen from a root is itself when it is written after the root again. -/
theorem ofString_joinPath_getD_below? (hroot : root.absolute = true) (hp : p.absolute = true)
    (hrootReads : root.ReadsBack) (hpReads : p.ReadsBack) :
    ofString (joinPath root.toString ((root.below? p).getD p).toString) = p := by
  have hreads : ((root.below? p).getD p).ReadsBack := hpReads.getD_below?
  rw [getD_below?_of_absolute hroot hp] at hreads ⊢
  split at hreads
  · next hunder =>
    rw [if_pos hunder, ofString_joinPath (hrootReads.head?_toString_iff.mpr hroot)]
    · rw [Path.toString, Path.toString, String.toList_ofList, String.toList_ofList,
        hrootReads.nameParts_chars, hreads.nameParts_chars]
      obtain ⟨rest, hrest⟩ := hunder
      rw [← hrest, List.drop_left, hrest, ← hp]
    · rw [Ne, hreads.head?_toString_iff]
      exact Bool.false_ne_true
  · next houtside =>
    rw [if_neg houtside, joinPath, hpReads.head?_toString_iff.mpr hp]
    exact hpReads.ofString_toString

end Path

section Keys

variable {root path : String}

theorem relativePath_eq (root : String) (hplain : '\\' ∉ path.toList) :
    relativePath root path =
      (((Path.ofString root).normalize.below? (Path.ofString path).normalize).getD
        (Path.ofString path).normalize).toString := by
  have hchars : (Path.ofString path).All (· ≠ '\\') :=
    Path.all_ofChars (by decide) fun c hc => ne_of_mem_of_not_mem hc hplain
  apply (Path.readsBack_normalize path.toList).getD_below?.normalizeSeparators_toString
  exact fun hmem => hchars.normalize.getD_below?.chars (by decide) '\\' hmem rfl

theorem ofString_joinPath_relativePath (hroot : (Path.ofString root).absolute = true)
    (hpath : (Path.ofString path).absolute = true) (hplain : '\\' ∉ path.toList) :
    Path.ofString (joinPath (normalizePath root) (relativePath root path)) =
      Path.ofString (normalizePath path) := by
  rw [relativePath_eq root hplain, Path.ofString_normalizePath]
  exact Path.ofString_joinPath_getD_below? hroot hpath (Path.readsBack_normalize root.toList)
    (Path.readsBack_normalize path.toList)

theorem normalizePath_eq_iff {path other : String} :
    normalizePath path = normalizePath other ↔
      (Path.ofString path).normalize = (Path.ofString other).normalize := by
  constructor
  · intro h
    rw [← Path.ofString_normalizePath, h, Path.ofString_normalizePath]
  · intro h
    rw [normalizePath, h, normalizePath]

/-- A file is known by its path as it is seen from the root. -/
theorem path_of_readSource {fs : FileSystem} {file : SourceFile}
    (h : readSource fs root path = .ok file) : file.path = relativePath root path := by
  unfold readSource at h
  dsimp only at h
  split at h
  · cases h
  · split at h
    · obtain rfl := Except.ok.inj h
      rfl
    · cases h

/-- What a path is seen as from a root leads back to it, under the root and elsewhere, so that paths
and the files read from them are known by one text exactly if their normal forms are the same. -/
theorem relativePath_lossless (hroot : (Path.ofString root).absolute = true)
    (hpath : (Path.ofString path).absolute = true) (hplain : '\\' ∉ path.toList) :
    Path.ofString (joinPath (normalizePath root) (relativePath root path)) =
        Path.ofString (normalizePath path) ∧
      ∀ other : String, (Path.ofString other).absolute = true → '\\' ∉ other.toList →
        (relativePath root path = relativePath root other ↔
          normalizePath path = normalizePath other) ∧
        ∀ fs file file', readSource fs root path = .ok file →
          readSource fs root other = .ok file' →
            (file.path = file'.path ↔ normalizePath path = normalizePath other) := by
  refine ⟨ofString_joinPath_relativePath hroot hpath hplain, fun other hother hplain' => ?_⟩
  have hkey : relativePath root path = relativePath root other ↔
      normalizePath path = normalizePath other := by
    rw [normalizePath_eq_iff]
    constructor
    · intro h
      rw [← Path.ofString_normalizePath, ← ofString_joinPath_relativePath hroot hpath hplain, h,
        ofString_joinPath_relativePath hroot hother hplain', Path.ofString_normalizePath]
    · intro h
      rw [relativePath_eq root hplain, relativePath_eq root hplain', h]
  refine ⟨hkey, fun fs file file' hread hread' => ?_⟩
  rw [path_of_readSource hread, path_of_readSource hread', hkey]

theorem relativePath_lossless_beside :
    Path.ofString (joinPath (normalizePath "/p/./q/..") (relativePath "/p/./q/.." "/p//a/../b.js")) =
        Path.ofString (normalizePath "/p//a/../b.js") ∧
      relativePath "/p/./q/.." "/p//a/../b.js" ≠ relativePath "/p/./q/.." "/b.js" := by
  obtain ⟨hjoin, hkeys⟩ := @relativePath_lossless "/p/./q/.." "/p//a/../b.js" (by decide +kernel)
    (by decide +kernel) (by decide +kernel)
  refine ⟨hjoin, fun h => ?_⟩
  have hsame := (hkeys "/b.js" (by decide +kernel) (by decide +kernel)).1.mp h
  revert hsame
  decide +kernel

end Keys

end Concordance
