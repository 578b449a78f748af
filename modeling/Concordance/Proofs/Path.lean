import Concordance.Path
import Concordance.Proofs.Entry.Merge
import Concordance.Proofs.Text.Occurrence

/-!
What a path is made of, and the order of paths.

Main statements: `forall_displayPath` (apart from slashes and dots, a path is shown with characters of
the text that was read), `Path.ReadsBack.ofString_toString` (a path whose parts are read as they are
written is read back), which holds of every normal form (`Path.readsBack_normalize`), and
`Path.le_total`, `Path.le_trans`.
-/

namespace Concordance

open Text

section Pieces

variable {text piece : List Char}

theorem PathPart.text_of_ofPiece? {part : PathPart} (h : PathPart.ofPiece? piece = some part) :
    part.text = piece := by
  unfold PathPart.ofPiece? at h
  split at h
  · cases h
  · split at h
    · next hdots =>
      obtain rfl := Option.some.inj h
      exact hdots.symm
    · obtain rfl := Option.some.inj h
      rfl

theorem isInfix_of_mem_splitSlashes (h : piece ∈ splitSlashes text) : piece <:+: text := by
  have hjoin : ['/'].intercalate (splitSlashes text) = text := List.intercalate_splitOn '/'
  rw [← hjoin]
  exact isInfix_intercalate h

theorem splitSlashes_append_cons (a b : List Char) :
    splitSlashes (a ++ '/' :: b) = splitSlashes a ++ splitSlashes b :=
  List.splitOnP_append_cons a b (by decide)

theorem splitSlashes_cons (text : List Char) :
    splitSlashes ('/' :: text) = [] :: splitSlashes text :=
  splitSlashes_append_cons [] text

theorem slash_notMem_of_mem_splitSlashes (h : piece ∈ splitSlashes text) : '/' ∉ piece := by
  unfold splitSlashes at h
  induction text generalizing piece with
  | nil => simp_all
  | cons c cs ih =>
    rw [List.splitOn_cons_eq_if_modifyHead] at h
    split at h
    · rcases List.mem_cons.mp h with rfl | h
      · exact List.not_mem_nil
      · exact ih h
    · next hc =>
      obtain ⟨first, more, hcs⟩ := List.exists_cons_of_ne_nil (List.splitOn_ne_nil '/' cs)
      rw [hcs] at h ih
      rcases List.mem_cons.mp h with rfl | h
      · refine List.not_mem_cons_of_ne_of_not_mem ?_ (ih List.mem_cons_self)
        rintro rfl
        exact hc rfl
      · exact ih (List.mem_cons_of_mem first h)

/-- The parts that a name stands for: one, unless there are slashes in it or it leads nowhere. -/
def nameParts (name : List Char) : List PathPart :=
  (splitSlashes name).filterMap PathPart.ofPiece?

theorem nameParts_append_cons (a b : List Char) :
    nameParts (a ++ '/' :: b) = nameParts a ++ nameParts b := by
  rw [nameParts, splitSlashes_append_cons, List.filterMap_append, nameParts, nameParts]

theorem nameParts_cons (text : List Char) : nameParts ('/' :: text) = nameParts text :=
  nameParts_append_cons [] text

theorem nameParts_intercalate (names : List (List Char)) :
    nameParts (['/'].intercalate names) = names.flatMap nameParts := by
  induction names with
  | nil => rfl
  | cons name rest ih =>
    cases rest with
    | nil => simp [List.intercalate]
    | cons next more =>
      rw [List.intercalate_cons_cons, List.append_assoc, List.singleton_append,
        nameParts_append_cons, ih, ← List.flatMap_cons]

theorem Path.ofChars_of_absolute (h : text.head? = some '/') :
    ofChars text = ⟨true, nameParts text⟩ := by
  simp [ofChars, nameParts, h]

end Pieces

section Characters

variable {P : Char → Prop} {text : List Char} {p base : Path}

namespace Path

/-- Every character of a part has the property. -/
def All (P : Char → Prop) (p : Path) : Prop :=
  ∀ part ∈ p.parts, ∀ c ∈ part.text, P c

theorem all_ofChars (hdot : P '.') (h : ∀ c ∈ text, P c) : (ofChars text).All P := by
  have hparts : ∀ part ∈ (splitSlashes text).filterMap PathPart.ofPiece?, ∀ c ∈ part.text, P c := by
    intro part hpart c hc
    obtain ⟨piece, hpiece, hread⟩ := List.mem_filterMap.mp hpart
    rw [PathPart.text_of_ofPiece? hread] at hc
    exact h c ((isInfix_of_mem_splitSlashes hpiece).mem hc)
  unfold ofChars All
  dsimp only
  split
  · intro part hpart
    rcases List.mem_cons.mp hpart with rfl | hpart
    · simpa [PathPart.text] using hdot
    · exact hparts part hpart
  · exact hparts

/-- What holds of every part but a dot holds of what is left of them. -/
theorem forall_mem_resolve {P : PathPart → Prop} {parts resolved : List PathPart}
    (hresolved : ∀ part ∈ resolved, P part) (hparts : ∀ part ∈ parts, part ≠ .current → P part) :
    ∀ part ∈ parts.foldl resolvePart resolved, P part := by
  induction parts generalizing resolved with
  | nil => exact hresolved
  | cons first parts ih =>
    obtain ⟨hfirst, hparts⟩ := List.forall_mem_cons.mp hparts
    apply ih _ hparts
    cases first with
    | current => exact hresolved
    | parent =>
      cases resolved with
      | nil => simpa [resolvePart] using hfirst
      | cons last resolved => exact (List.forall_mem_cons.mp hresolved).2
    | name text => exact List.forall_mem_cons.mpr ⟨hfirst (by simp), hresolved⟩

theorem All.normalize (h : p.All P) : p.normalize.All P := by
  intro part hpart
  rw [Path.normalize, List.mem_reverse] at hpart
  exact forall_mem_resolve (by simp) (fun part hpart _ => h part hpart) part hpart

theorem All.getD_below? (h : p.All P) : ((base.below? p).getD p).All P := by
  unfold below?
  split
  · exact h
  · split
    · exact fun part hpart => h part (List.mem_of_mem_drop hpart)
    · exact h

theorem All.chars (hslash : P '/') (h : p.All P) : ∀ c ∈ p.chars, P c := by
  intro c hc
  rcases List.mem_append.mp hc with hc | hc
  · split at hc
    · obtain rfl := List.mem_singleton.mp hc
      exact hslash
    · cases hc
  · rcases mem_intercalate hc with rfl | ⟨piece, hpiece, hc⟩
    · exact hslash
    · obtain ⟨part, hpart, rfl⟩ := List.mem_map.mp hpiece
      exact h part hpart c hc

end Path

variable (hslash : P '/') (hdot : P '.')

include hslash in
theorem forall_normalizeSeparators {path : String} (h : ∀ c ∈ path.toList, P c) :
    ∀ c ∈ (normalizeSeparators path).toList, P c := by
  intro c hc
  rw [normalizeSeparators, String.toList_ofList] at hc
  have hreplaced : c ∈ replaceChar '\\' ['/'] path.toList := by
    cases hstrip : stripFront? ['.', '/'] (replaceChar '\\' ['/'] path.toList) with
    | none => simpa [hstrip] using hc
    | some rest =>
      rw [stripFront?_eq_some_iff.mp hstrip]
      rw [hstrip, Option.getD_some] at hc
      exact List.mem_append_right _ hc
  obtain ⟨d, hd, hc⟩ := List.mem_flatMap.mp hreplaced
  split at hc
  · obtain rfl := List.mem_singleton.mp hc
    exact hslash
  · obtain rfl := List.mem_singleton.mp hc
    exact h c hd

include hslash hdot in
/-- A path is shown with the characters of the file, slashes and dots, from wherever it is seen. -/
theorem forall_displayPath {file : String} (h : ∀ c ∈ file.toList, P c) (root : Option String) :
    ∀ c ∈ (displayPath file root).toList, P c := by
  have hrelative : ∀ root, ∀ c ∈ (relativePath root file).toList, P c := by
    intro root
    apply forall_normalizeSeparators hslash
    rw [Path.toString, String.toList_ofList]
    exact (Path.all_ofChars hdot h).normalize.getD_below?.chars hslash
  unfold displayPath
  split
  · split
    · exact hrelative _
    · exact forall_normalizeSeparators hslash h
  · exact forall_normalizeSeparators hslash h

end Characters

section Reading

/-- The part is read as it is written. -/
def PathPart.ReadsBack (part : PathPart) : Prop :=
  '/' ∉ part.text ∧ PathPart.ofPiece? part.text = some part

instance (part : PathPart) : Decidable part.ReadsBack :=
  inferInstanceAs (Decidable (_ ∧ _))

variable {text : List Char} {part : PathPart} {p base : Path}

theorem PathPart.not_readsBack_current : ¬ PathPart.current.ReadsBack := by
  decide

theorem PathPart.ReadsBack.nameParts_text (h : part.ReadsBack) : nameParts part.text = [part] := by
  have hsplit : splitSlashes part.text = [part.text] := List.splitOn_eq_singleton h.1
  rw [nameParts, hsplit, List.filterMap_cons_some h.2, List.filterMap_nil]

theorem PathPart.readsBack_of_mem_nameParts (h : part ∈ nameParts text) : part.ReadsBack := by
  obtain ⟨piece, hpiece, hread⟩ := List.mem_filterMap.mp h
  have hslash := slash_notMem_of_mem_splitSlashes hpiece
  obtain rfl := PathPart.text_of_ofPiece? hread
  exact ⟨hslash, hread⟩

namespace Path

/-- Every part is read as it is written. -/
def ReadsBack (p : Path) : Prop :=
  ∀ part ∈ p.parts, part.ReadsBack

/-- A normal form holds no dot, and all other parts that are read are read as they are written. -/
theorem readsBack_normalize (text : List Char) : (ofChars text).normalize.ReadsBack := by
  intro part hpart
  rw [normalize, List.mem_reverse] at hpart
  refine forall_mem_resolve (by simp) (fun part hpart hcurrent => ?_) part hpart
  apply @PathPart.readsBack_of_mem_nameParts text
  unfold ofChars at hpart
  dsimp only at hpart
  split at hpart
  · exact (List.mem_cons.mp hpart).resolve_left hcurrent
  · exact hpart

theorem ReadsBack.getD_below? (h : p.ReadsBack) : ((base.below? p).getD p).ReadsBack := by
  unfold below?
  split
  · exact h
  · split
    · exact fun part hpart => h part (List.mem_of_mem_drop hpart)
    · exact h

theorem ReadsBack.nameParts_chars (h : p.ReadsBack) : nameParts p.chars = p.parts := by
  have hnames : nameParts (List.intercalate ['/'] (p.parts.map PathPart.text)) = p.parts := by
    rw [nameParts_intercalate, List.flatMap_map]
    calc p.parts.flatMap (fun part => nameParts part.text)
        = p.parts.flatMap (fun part => [part]) :=
          List.flatMap_congr fun part hpart => (h part hpart).nameParts_text
      _ = p.parts := List.flatMap_singleton' p.parts
  rw [chars]
  split
  · rw [List.singleton_append, nameParts_cons, hnames]
  · rw [List.nil_append, hnames]

theorem ReadsBack.ofChars_chars (h : p.ReadsBack) : ofChars p.chars = p := by
  have hparts := h.nameParts_chars
  obtain ⟨absolute, parts⟩ := p
  cases absolute with
  | true => rw [ofChars_of_absolute rfl, hparts]
  | false =>
    cases parts with
    | nil => rfl
    | cons part parts =>
      obtain ⟨-, hread⟩ := h part List.mem_cons_self
      have hsplit : splitSlashes (chars ⟨false, part :: parts⟩) =
          part.text :: parts.map PathPart.text := by
        apply List.splitOn_intercalate '/' _ (by simp)
        intro piece hpiece
        obtain ⟨q, hq, rfl⟩ := List.mem_map.mp hpiece
        exact (h q hq).1
      -- the first piece tells that the path is relative and does not start with a dot
      have hne : part.text ≠ [] ∧ part.text ≠ ['.'] := by
        constructor <;> (intro htext; rw [htext] at hread; cases hread)
      have hrelative : (chars ⟨false, part :: parts⟩).head? ≠ some '/' := by
        intro hhead
        obtain ⟨rest, hrest⟩ := List.head?_eq_some_iff.mp hhead
        rw [hrest, splitSlashes_cons] at hsplit
        exact hne.1 (List.cons.inj hsplit).1.symm
      rw [nameParts, hsplit] at hparts
      simp [ofChars, hparts, hrelative, hsplit, hne.2]

/-- A path is read back as it was written. -/
theorem ReadsBack.ofString_toString (h : p.ReadsBack) : ofString p.toString = p := by
  rw [Path.toString, ofString, String.toList_ofList, h.ofChars_chars]

theorem ofString_normalizePath (path : String) :
    ofString (normalizePath path) = (ofString path).normalize :=
  (readsBack_normalize path.toList).ofString_toString

end Path

end Reading

section Order

theorem PathPart.le_total (a b : PathPart) : a.le b = true ∨ b.le a = true := by
  cases a with
  | current => exact Or.inl rfl
  | parent =>
    cases b with
    | current => exact Or.inr rfl
    | parent => exact Or.inl rfl
    | name b => exact Or.inl rfl
  | name a =>
    cases b with
    | current => exact Or.inr rfl
    | parent => exact Or.inr rfl
    | name b => exact upTo_total a b

theorem PathPart.le_antisymm {a b : PathPart} (hab : a.le b = true) (hba : b.le a = true) :
    a = b := by
  cases a <;> cases b <;> simp_all [PathPart.le]
  exact upTo_antisymm hab hba

theorem PathPart.le_trans {a b c : PathPart} (hab : a.le b = true) (hbc : b.le c = true) :
    a.le c = true := by
  cases a <;> cases b <;> cases c <;> simp_all [PathPart.le]
  exact upTo_trans hab hbc

namespace Path

theorem go_total (as bs : List PathPart) : le.go as bs = true ∨ le.go bs as = true := by
  induction as generalizing bs with
  | nil => exact Or.inl rfl
  | cons a as ih =>
    cases bs with
    | nil => exact Or.inr rfl
    | cons b bs =>
      by_cases h : a = b
      · simpa [le.go, h] using ih bs
      · simpa [le.go, h, Ne.symm h] using PathPart.le_total a b

theorem go_trans {as bs cs : List PathPart} (hab : le.go as bs = true) (hbc : le.go bs cs = true) :
    le.go as cs = true := by
  induction as generalizing bs cs with
  | nil => rfl
  | cons a as ih =>
    cases bs with
    | nil => cases hab
    | cons b bs =>
      cases cs with
      | nil => cases hbc
      | cons c cs =>
        simp only [le.go] at hab hbc ⊢
        by_cases h₁ : a = b
        · subst h₁
          by_cases h₂ : a = c
          · simp only [h₂, ↓reduceIte] at hab hbc ⊢
            exact ih hab hbc
          · simpa only [h₂, ↓reduceIte] using hbc
        · rw [if_neg h₁] at hab
          by_cases h₂ : b = c
          · rw [← h₂, if_neg h₁]
            exact hab
          · rw [if_neg h₂] at hbc
            have hac : a ≠ c := by
              rintro rfl
              exact h₁ (PathPart.le_antisymm hab hbc)
            rw [if_neg hac]
            exact PathPart.le_trans hab hbc

theorem le_total (p q : Path) : p.le q = true ∨ q.le p = true := by
  obtain ⟨pa, ps⟩ := p
  obtain ⟨qa, qs⟩ := q
  have hgo := go_total ps qs
  cases pa <;> cases qa
  · simpa [le] using hgo
  · cases ps <;> simp [le]
  · cases qs <;> simp [le]
  · simpa [le] using hgo

/-- An absolute path stands between the empty relative path and all others. -/
theorem le_trans {p q r : Path} (hpq : p.le q = true) (hqr : q.le r = true) : p.le r = true := by
  obtain ⟨pa, ps⟩ := p
  obtain ⟨qa, qs⟩ := q
  obtain ⟨ra, rs⟩ := r
  have hgo := @go_trans ps qs rs
  cases pa <;> cases qa <;> cases ra <;> cases ps <;> cases qs <;> cases rs <;>
    simp_all [le, le.go]

end Path

end Order

end Concordance
