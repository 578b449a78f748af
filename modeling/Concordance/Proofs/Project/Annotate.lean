import Mathlib.Data.List.Dedup
import Concordance.Project.Annotate
import Concordance.Proofs.FileTree.Write
import Concordance.Proofs.Keyed

/-!
What annotating a project does to the files, and what its report says.

The work on one file either leaves the files as they are or makes one write (`annotateOne_cases`). A
run of the work is therefore a chain of writes (`Written`), from which it follows where the files
differ afterwards; `locate_congr` keeps the targets of the later files where they were. Main
statement: `annotateProject_effect`.
-/

namespace Concordance

open FileSystem FileNode

section Rewriting

/-- A file that gets another content changes the face of its own location only. -/
theorem faceAt_put_of_file {top : FileNode} {place : Location} {old : ByteArray}
    (h : top.faceAt place = some (.file old)) (new : ByteArray) (l : Location) :
    (top.put place (.file new)).faceAt l =
      if l = place then some (.file new) else top.faceAt l := by
  by_cases hplace : place = []
  · subst hplace
    have htop : top = .file old := by simpa [get?] using faceAt_eq_file_iff.mp h
    rw [htop, put]
    cases l with
    | nil => rfl
    | cons name rest => rfl
  · rw [← List.dropLast_append_getLast hplace] at h ⊢
    refine faceAt_put_file new (faceAt_of_get?_append (List.cons_ne_nil _ _)
      (faceAt_eq_file_iff.mp h)) ?_ l
    rw [h]
    intro hdirectory
    cases hdirectory

/-- The files differ at most in the contents of files, at locations with `P`. -/
structure Rewritten (P : Location → Prop) (fs after : FileSystem) : Prop where
  here : after.here = fs.here
  shape : after.top.shapeAt = fs.top.shapeAt
  face : ∀ l, ¬ P l → after.top.faceAt l = fs.top.faceAt l

theorem Rewritten.refl (P : Location → Prop) (fs : FileSystem) : Rewritten P fs fs :=
  ⟨rfl, rfl, fun _ _ => rfl⟩

theorem Rewritten.trans {P Q : Location → Prop} {fs mid after : FileSystem}
    (h : Rewritten P fs mid) (h' : Rewritten Q mid after) :
    Rewritten (fun l => P l ∨ Q l) fs after where
  here := h'.here.trans h.here
  shape := h'.shape.trans h.shape
  face l hl :=
    (h'.face l fun hq => hl (Or.inr hq)).trans (h.face l fun hp => hl (Or.inl hp))

theorem Rewritten.mono {P Q : Location → Prop} {fs after : FileSystem} (h : Rewritten P fs after)
    (hPQ : ∀ l, P l → Q l) : Rewritten Q fs after :=
  ⟨h.here, h.shape, fun l hl => h.face l fun hp => hl (hPQ l hp)⟩

variable {fs after : FileSystem} {place : Location} {content text : String}

theorem exists_file_of_textAt (h : fs.textAt place = .ok content) :
    ∃ bytes, fs.top.faceAt place = some (.file bytes) := by
  rw [textAt, bytesAt] at h
  split at h
  · next bytes hget => exact ⟨bytes, faceAt_eq_file_iff.mpr hget⟩
  · cases h
  · cases h

/-- A write at the location of a file changes nothing but its content. -/
theorem rewritten_putText (h : fs.textAt place = .ok content) (text : String) :
    Rewritten (· = place) fs (fs.putText place text) := by
  obtain ⟨bytes, hfile⟩ := exists_file_of_textAt h
  have hface := faceAt_put_of_file hfile text.toUTF8
  refine ⟨rfl, funext fun l => ?_, fun l hl => (hface l).trans (if_neg hl)⟩
  rw [shapeAt, shapeAt]
  show Option.map Face.shape ((fs.top.put place (.file text.toUTF8)).faceAt l) = _
  rw [hface l]
  split
  · next hl => rw [hl, hfile]; rfl
  · rfl

/-- Where a path leads does not depend on the contents of files. -/
theorem locate_congr {P : Location → Prop} (h : Rewritten P fs after) (path : String) :
    after.locate path = fs.locate path := by
  rw [locate, locate, follow, follow, h.here]
  split
  · rfl
  · rw [walk_congr h.shape]

theorem locateWithin_congr {P : Location → Prop} (h : Rewritten P fs after) (path root : String) :
    locateWithin after path root = locateWithin fs path root := by
  simp only [locateWithin, locate_congr h]

/-- What is read at a location depends on the face of the node there. -/
theorem bytesAt_congr (h : after.top.faceAt place = fs.top.faceAt place) :
    after.bytesAt place = fs.bytesAt place := by
  rw [faceAt, faceAt] at h
  rw [bytesAt, bytesAt]
  cases hafter : after.top.get? place with
  | none =>
    rw [hafter] at h
    rw [Option.map_eq_none_iff.mp h.symm]
  | some node =>
    rw [hafter] at h
    obtain ⟨node', hbefore, hface⟩ := Option.map_eq_some_iff.mp h.symm
    rw [hbefore]
    cases node <;> cases node' <;> cases hface <;> rfl

theorem textAt_congr (h : after.top.faceAt place = fs.top.faceAt place) :
    after.textAt place = fs.textAt place := by
  rw [textAt, textAt, bytesAt_congr h]

/-- What lies inside the root is where the path leads. -/
theorem locateWithin_eq_ok {path root : String} (h : locateWithin fs path root = .ok place) :
    fs.locate path = .ok place ∧ ∃ base, fs.locate root = .ok base ∧ base.holds place = true := by
  unfold locateWithin at h
  split at h
  · cases h
  next found hfound =>
  split at h
  · cases h
  next base hbase =>
  split at h
  · next hholds =>
    cases h
    exact ⟨hfound, base, hbase, hholds⟩
  · cases h

end Rewriting

section Writes

variable (root : String) (symbols : List Symbol) (options : AnnotateOptions)

/-- The annotated form of a file that holds the content. -/
def annotatedForm (file content : String) : String :=
  String.ofList (annotateText content.toList file symbols options).text

/-- The file has entries and a comment style, and leads to the location, inside the root. -/
structure Target (fs : FileSystem) (file : String) (place : Location) : Prop where
  entries : hasEntries file symbols options.entries = true
  style : (CommentStyle.ofPath? file).isSome = true
  located : locateWithin fs (joinPath root file) root = .ok place

/-- The files after one write for each file of the list: the annotated form of what is read at its
target right before takes its place. -/
inductive Written : FileSystem → List String → FileSystem → Prop
  | nil (fs : FileSystem) : Written fs [] fs
  | cons {fs after : FileSystem} {file content : String} {files : List String} {place : Location}
      (target : Target root symbols options fs file place) (read : fs.textAt place = .ok content)
      (rest : Written (fs.putText place (annotatedForm symbols options file content)) files after) :
      Written fs (file :: files) after

variable {root symbols options} {fs after : FileSystem} {file : String}

theorem Target.congr {P : Location → Prop} (h : Rewritten P fs after) {place : Location}
    (target : Target root symbols options after file place) :
    Target root symbols options fs file place :=
  ⟨target.entries, target.style, (locateWithin_congr h _ _).symm.trans target.located⟩

/-- The targets of the files that are written are all that changes. -/
theorem Written.rewritten {files : List String} (h : Written root symbols options fs files after) :
    Rewritten (fun l => ∃ file ∈ files, Target root symbols options fs file l) fs after := by
  induction h with
  | nil fs => exact .refl _ fs
  | @cons fs after file content files place target read _ ih =>
    have hwrite := rewritten_putText read (annotatedForm symbols options file content)
    refine (hwrite.trans ih).mono ?_
    rintro l (rfl | ⟨other, hother, hl⟩)
    · exact ⟨file, List.mem_cons_self, target⟩
    · exact ⟨other, List.mem_cons_of_mem file hother, hl.congr hwrite⟩

end Writes

section Steps

variable {root : String} {symbols : List Symbol} {options : AnnotateOptions} {dryRun : Bool}
  {refusals : Location → Option SystemError} {fs : FileSystem} {file : String}

/-- A file is to be updated when it has a target that holds something else than its annotated
form. -/
theorem fileOutcome_eq_updated {place : Location} {text : String}
    (h : fileOutcome fs root symbols options file = .updated place text) :
    Target root symbols options fs file place ∧ ∃ content, fs.textAt place = .ok content ∧
      text = annotatedForm symbols options file content ∧ content ≠ text := by
  unfold fileOutcome at h
  split at h
  · cases h
  next hentries =>
  split at h
  · cases h
  next hstyle =>
  split at h
  · cases h
  next found hlocated =>
  split at h
  · cases h
  next content hread =>
  simp only at h
  split at h
  · cases h
  next hchanged =>
  cases h
  have hstyled := Option.isSome_iff_ne_none.mpr (mt Option.isNone_iff_eq_none.mpr hstyle)
  refine ⟨⟨by simpa using hentries, hstyled, hlocated⟩, content, hread, rfl, fun hsame => ?_⟩
  have htext := congrArg String.toList hsame
  rw [String.toList_ofList] at htext
  exact hchanged (beq_iff_eq.mpr htext.symm)

/-- A write where something else is read comes about unless the system refuses it. -/
theorem writeAtIfChanged_eq {place : Location} {content text : String}
    (hread : fs.textAt place = .ok content) (hne : content ≠ text) :
    writeAtIfChanged fs refusals place text =
      match refusals place with
      | some e => .error (.fileWrite place.path e.message)
      | none => .ok (true, fs.putText place text) := by
  obtain ⟨bytes, hfile⟩ := exists_file_of_textAt hread
  have hwrite : fs.writeAt refusals place text =
      match refusals place with
      | some e => .error e
      | none => .ok (fs.putText place text) := by
    cases hrefusal : refusals place <;>
      simp only [writeAt, faceAt_eq_file_iff.mp hfile, hrefusal]
  cases hrefusal : refusals place <;>
    simp only [writeAtIfChanged, unlessThere, hread, hwrite, hrefusal, beq_iff_eq, if_neg hne]

/-- Only an update is carried out. -/
theorem annotateOne_of_not_isUpdate (h : (fileOutcome fs root symbols options file).isUpdate = false) :
    annotateOne root symbols options dryRun refusals fs file =
      (fs, fileOutcome fs root symbols options file) := by
  rw [annotateOne]
  cases houtcome : fileOutcome fs root symbols options file with
  | updated place text => rw [houtcome] at h; cases h
  | _ => rfl

theorem annotateOne_dryRun :
    annotateOne root symbols options true refusals fs file =
      (fs, fileOutcome fs root symbols options file) := by
  rw [annotateOne]
  cases fileOutcome fs root symbols options file <;> rfl

theorem annotateOne_of_updated {place : Location} {text : String}
    (h : fileOutcome fs root symbols options file = .updated place text) :
    annotateOne root symbols options false refusals fs file =
      match refusals place with
      | some e => (fs, .failed .write (.fileWrite place.path e.message))
      | none => (fs.putText place text, .updated place text) := by
  obtain ⟨-, content, hread, -, hne⟩ := fileOutcome_eq_updated h
  rw [annotateOne, h, FileOutcome.carryOut, if_neg Bool.false_ne_true, writeAtIfChanged_eq hread hne]
  cases refusals place <;> rfl

/-- What the work on one file can do: nothing to the files, or one write that the report calls an
update. -/
theorem annotateOne_cases {next : FileSystem} {outcome : FileOutcome}
    (h : annotateOne root symbols options false refusals fs file = (next, outcome)) :
    (next = fs ∧ outcome.isUpdate = false) ∨
    (outcome.isUpdate = true ∧ ∃ place content,
      Target root symbols options fs file place ∧ fs.textAt place = .ok content ∧
      next = fs.putText place (annotatedForm symbols options file content)) := by
  cases hupdate : (fileOutcome fs root symbols options file).isUpdate with
  | false =>
    rw [annotateOne_of_not_isUpdate hupdate] at h
    cases h
    exact Or.inl ⟨rfl, hupdate⟩
  | true =>
    obtain ⟨place, text, houtcome⟩ : ∃ place text,
        fileOutcome fs root symbols options file = .updated place text := by
      cases houtcome : fileOutcome fs root symbols options file with
      | updated place text => exact ⟨place, text, rfl⟩
      | _ => rw [houtcome] at hupdate; cases hupdate
    rw [annotateOne_of_updated houtcome] at h
    obtain ⟨target, content, hread, rfl, -⟩ := fileOutcome_eq_updated houtcome
    cases hrefusal : refusals place with
    | some e => rw [hrefusal] at h; cases h; exact Or.inl ⟨rfl, rfl⟩
    | none => rw [hrefusal] at h; cases h; exact Or.inr ⟨rfl, place, content, target, hread, rfl⟩

/-- A dry run leaves the files as they are. -/
theorem annotateEach_dryRun (fs : FileSystem) (files : List String) :
    (annotateEach root symbols options true refusals fs files).1 = fs := by
  induction files generalizing fs with
  | nil => rfl
  | cons file files ih =>
    simp only [annotateEach, annotateOne_dryRun]
    exact ih fs

/-- The files that a run calls updated are the files that it wrote, in order. -/
theorem annotateEach_written (fs : FileSystem) (files : List String) :
    Written root symbols options fs
      (((annotateEach root symbols options false refusals fs files).2.filter
        fun o => o.2.isUpdate).map Prod.fst)
      (annotateEach root symbols options false refusals fs files).1 := by
  induction files generalizing fs with
  | nil => exact .nil fs
  | cons file files ih =>
    generalize hone : annotateOne root symbols options false refusals fs file = one
    obtain ⟨next, outcome⟩ := one
    simp only [annotateEach, hone]
    rcases annotateOne_cases hone with ⟨rfl, hupdate⟩ | ⟨hupdate, place, content, htarget, hread, rfl⟩
    · rw [List.filter_cons_of_neg (by simp [hupdate])]
      exact ih next
    · rw [List.filter_cons, if_pos hupdate]
      exact .cons htarget hread (ih _)

theorem annotateOne_eq_nothingToDo_iff :
    (annotateOne root symbols options dryRun refusals fs file).2 = .nothingToDo ↔
      hasEntries file symbols options.entries = false := by
  have hplan : fileOutcome fs root symbols options file = .nothingToDo ↔
      hasEntries file symbols options.entries = false := by
    unfold fileOutcome
    cases hasEntries file symbols options.entries with
    | false => simp
    | true =>
      simp only [Bool.not_true, Bool.false_eq_true, if_false, reduceCtorEq, iff_false]
      repeat' split
      all_goals exact nofun
  rw [annotateOne, ← hplan]
  cases fileOutcome fs root symbols options file with
  | updated place text =>
    rw [FileOutcome.carryOut]
    repeat' split
    all_goals simp
  | nothingToDo => simp [FileOutcome.carryOut]
  | noCommentStyle => simp [FileOutcome.carryOut]
  | failed stage e => simp [FileOutcome.carryOut]
  | unchanged => simp [FileOutcome.carryOut]

/-- The files with entries are those on which something is done. -/
theorem annotateEach_filter (fs : FileSystem) (files : List String) :
    ((annotateEach root symbols options dryRun refusals fs files).2.filter
        fun o => o.2 != .nothingToDo).map Prod.fst =
      files.filter (hasEntries · symbols options.entries) := by
  induction files generalizing fs with
  | nil => rfl
  | cons file files ih =>
    have hone : (annotateOne root symbols options dryRun refusals fs file).2 = .nothingToDo ↔
        hasEntries file symbols options.entries = false := annotateOne_eq_nothingToDo_iff
    simp only [annotateEach]
    cases hentries : hasEntries file symbols options.entries with
    | false =>
      rw [List.filter_cons_of_neg (by simp [hone.mpr hentries]), List.filter_cons_of_neg (by simp [hentries])]
      exact ih _
    | true =>
      rw [List.filter_cons_of_pos (by simpa [hentries] using hone), List.map_cons, ih,
        List.filter_cons, if_pos hentries]

end Steps

section Report

/-- The report counts each of the files once, as updated, unchanged, failed or without a comment
style; the diagnostics are about the last two. -/
def AnnotateReport.CountsOnce (r : AnnotateReport) (files : List String) : Prop :=
  ∃ unchanged failed unstyled : List String,
    (r.updated ++ unchanged ++ failed ++ unstyled).Perm files ∧
      r.unchanged = unchanged.length ∧ r.failed = failed.length ∧
      ((r.diagnostics.filter Diagnostic.isError).map Diagnostic.path).Perm failed ∧
      (r.diagnostics.filter fun d => !d.isError).Perm (unstyled.map (.skipped · .noCommentStyle))

/-- The files with an outcome. -/
def filesWith (p : FileOutcome → Bool) (outcomes : List (String × FileOutcome)) : List String :=
  (outcomes.filter fun o => p o.2).map Prod.fst

theorem filesWith_cons (p : FileOutcome → Bool) (file : String) (outcome : FileOutcome)
    (outcomes : List (String × FileOutcome)) :
    filesWith p ((file, outcome) :: outcomes) =
      if p outcome then file :: filesWith p outcomes else filesWith p outcomes := by
  rw [filesWith, List.filter_cons]
  split <;> rfl

/-- Each outcome but the empty one is of exactly one kind. -/
theorem perm_filesWith (outcomes : List (String × FileOutcome)) :
    (filesWith FileOutcome.isUpdate outcomes ++ filesWith (· == .unchanged) outcomes ++
      filesWith FileOutcome.isFailure outcomes ++ filesWith (· == .noCommentStyle) outcomes).Perm
      (filesWith (· != .nothingToDo) outcomes) := by
  rw [List.perm_iff_count]
  intro name
  induction outcomes with
  | nil => rfl
  | cons o outcomes ih =>
    obtain ⟨file, outcome⟩ := o
    simp only [List.count_append] at ih
    cases outcome <;>
      simp [filesWith_cons, FileOutcome.isUpdate, FileOutcome.isFailure, List.count_cons] <;>
      omega

theorem isError_diagnostics (outcomes : List (String × FileOutcome)) :
    ((outcomes.filterMap fun o => o.2.diagnostic? o.1).filter Diagnostic.isError).map Diagnostic.path =
      filesWith FileOutcome.isFailure outcomes := by
  induction outcomes with
  | nil => rfl
  | cons o outcomes ih =>
    obtain ⟨file, outcome⟩ := o
    cases outcome with
    | failed stage e => exact congrArg (file :: ·) ih
    | _ => exact ih

theorem skipped_diagnostics (outcomes : List (String × FileOutcome)) :
    (outcomes.filterMap fun o => o.2.diagnostic? o.1).filter (fun d => !d.isError) =
      (filesWith (· == .noCommentStyle) outcomes).map (.skipped · .noCommentStyle) := by
  induction outcomes with
  | nil => rfl
  | cons o outcomes ih =>
    obtain ⟨file, outcome⟩ := o
    cases outcome with
    | noCommentStyle => exact congrArg (Diagnostic.skipped file .noCommentStyle :: ·) ih
    | _ => exact ih

theorem countsOnce_ofOutcomes (outcomes : List (String × FileOutcome)) :
    (AnnotateReport.ofOutcomes outcomes).CountsOnce (filesWith (· != .nothingToDo) outcomes) := by
  have hsorted := List.mergeSort_perm (outcomes.filterMap fun o => o.2.diagnostic? o.1)
    Diagnostic.upTo
  refine ⟨_, _, _, perm_filesWith outcomes, ?_, ?_, ?_, ?_⟩
  · simp [AnnotateReport.ofOutcomes, filesWith, List.countP_eq_length_filter]
  · simp [AnnotateReport.ofOutcomes, filesWith, List.countP_eq_length_filter]
  · rw [← isError_diagnostics]
    exact (hsorted.filter _).map _
  · rw [← skipped_diagnostics]
    exact hsorted.filter _

end Report

section Agreement

variable {root : String} {symbols : List Symbol} {options : AnnotateOptions}
  {refusals : Location → Option SystemError}

/-- The work on a file is planned alike when its target holds the same in both. -/
theorem fileOutcome_congr {P : Location → Prop} {fs now : FileSystem} (h : Rewritten P fs now)
    {file : String} (hfile : ∀ place, fs.locate (joinPath root file) = .ok place → ¬ P place) :
    fileOutcome now root symbols options file = fileOutcome fs root symbols options file := by
  unfold fileOutcome
  rw [locateWithin_congr h]
  cases hlocated : locateWithin fs (joinPath root file) root with
  | error e => rfl
  | ok place =>
    have hplace := h.face place (hfile place (locateWithin_eq_ok hlocated).1)
    simp only [textAt_congr hplace]

/-- A real run ends each file as a dry run does, as long as each file leads to a location of its own
and no write is refused. -/
theorem outcomes_eq_dryRun {P : Location → Prop} {fs now : FileSystem} (h : Rewritten P fs now)
    {files : List String}
    (happart : files.Pairwise fun f g => ∀ place, fs.locate (joinPath root f) = .ok place →
      fs.locate (joinPath root g) ≠ .ok place)
    (hfresh : ∀ file ∈ files, ∀ place, fs.locate (joinPath root file) = .ok place → ¬ P place)
    (hfree : ∀ file ∈ files, ∀ place, fs.locate (joinPath root file) = .ok place →
      refusals place = none) :
    (annotateEach root symbols options false refusals now files).2 =
      (annotateEach root symbols options true refusals fs files).2 := by
  induction files generalizing P now with
  | nil => rfl
  | cons file files ih =>
    rw [List.pairwise_cons] at happart
    have hplan : fileOutcome now root symbols options file = fileOutcome fs root symbols options file :=
      fileOutcome_congr h (hfresh file List.mem_cons_self)
    have hmore := fun other hother => hfree other (List.mem_cons_of_mem file hother)
    simp only [annotateEach, annotateOne_dryRun]
    cases houtcome : fileOutcome fs root symbols options file with
    | updated place text =>
      rw [houtcome] at hplan
      obtain ⟨target, content, hread, -, -⟩ := fileOutcome_eq_updated hplan
      have hplace := (locateWithin_eq_ok (target.congr h).located).1
      rw [annotateOne_of_updated hplan, hfree file List.mem_cons_self place hplace]
      -- The write takes the place of this file from the others, which lead elsewhere.
      refine congrArg (_ :: ·) (ih (h.trans (rewritten_putText hread text)) happart.2 ?_ hmore)
      rintro other hother l hl (hP | rfl)
      · exact hfresh other (List.mem_cons_of_mem file hother) l hl hP
      · exact happart.1 other hother l hplace hl
    | _ =>
      rw [annotateOne_of_not_isUpdate (by rw [hplan, houtcome]; rfl), hplan, houtcome]
      exact congrArg (_ :: ·) (ih h happart.2
        (fun other hother => hfresh other (List.mem_cons_of_mem file hother)) hmore)

end Agreement

section Project

/-- The files that define symbols, each once. -/
theorem definingFiles_perm (symbols : List Symbol) :
    (definingFiles symbols).Perm (symbols.map Symbol.filePath).dedup := by
  refine (List.mergeSort_perm _ _).trans ?_
  have hnodup : (firstPerKey id [] (symbols.map Symbol.filePath)).Nodup := by
    simpa using nodup_map_firstPerKey id [] (symbols.map Symbol.filePath)
  refine (List.perm_ext_iff_of_nodup hnodup (List.nodup_dedup _)).mpr fun file => ?_
  rw [List.mem_dedup]
  constructor
  · exact mem_of_mem_firstPerKey id
  · intro hfile
    have hkey := key_mem_firstPerKey id [] hfile
    rw [List.map_id] at hkey
    exact hkey.resolve_left List.not_mem_nil

variable (fs : FileSystem) (root : String) (symbols : List Symbol) (options : AnnotateOptions)
  (refusals : Location → Option SystemError)

theorem annotateProject_written :
    Written root symbols options fs (annotateProject fs root symbols options false refusals).2.updated
      (annotateProject fs root symbols options false refusals).1 :=
  annotateEach_written fs (definingFiles symbols)

theorem annotateProject_countsOnce (dryRun : Bool) :
    (annotateProject fs root symbols options dryRun refusals).2.CountsOnce
      ((symbols.map Symbol.filePath).dedup.filter (hasEntries · symbols options.entries)) := by
  obtain ⟨unchanged, failed, unstyled, hperm, hrest⟩ := countsOnce_ofOutcomes
    (annotateEach root symbols options dryRun refusals fs (definingFiles symbols)).2
  refine ⟨unchanged, failed, unstyled, hperm.trans ?_, hrest⟩
  rw [filesWith, annotateEach_filter]
  exact (definingFiles_perm symbols).filter _

/-- Annotating a project changes nothing in a dry run, and else only what it may. A location that
differs afterwards lies inside the root, where a file of the symbols leads that has entries and a
comment style. The files afterwards come of one write for each file that is reported as updated, of
the annotated form of what was there right before. Each file with entries is counted once. Where each
file leads to a location of its own and no write is refused, a dry run reports what a real run does. -/
theorem annotateProject_effect :
    (∀ dryRun l, (annotateProject fs root symbols options dryRun refusals).1.top.faceAt l ≠
        fs.top.faceAt l → dryRun = false ∧ ∃ base file,
          fs.locate root = .ok base ∧ base.holds l = true ∧ file ∈ symbols.map Symbol.filePath ∧
          fs.locate (joinPath root file) = .ok l ∧
          hasEntries file symbols options.entries = true ∧
          (CommentStyle.ofPath? file).isSome = true) ∧
    (annotateProject fs root symbols options true refusals).1 = fs ∧
    Written root symbols options fs (annotateProject fs root symbols options false refusals).2.updated
      (annotateProject fs root symbols options false refusals).1 ∧
    (∀ dryRun, (annotateProject fs root symbols options dryRun refusals).2.CountsOnce
      ((symbols.map Symbol.filePath).dedup.filter (hasEntries · symbols options.entries))) ∧
    ((∀ f ∈ symbols.map Symbol.filePath, ∀ g ∈ symbols.map Symbol.filePath, f ≠ g →
        ∀ place, fs.locate (joinPath root f) = .ok place → fs.locate (joinPath root g) ≠ .ok place) →
      (∀ file ∈ symbols.map Symbol.filePath, ∀ place, fs.locate (joinPath root file) = .ok place →
        refusals place = none) →
      (annotateProject fs root symbols options false refusals).2 =
        (annotateProject fs root symbols options true refusals).2) := by
  have hdry : (annotateProject fs root symbols options true refusals).1 = fs :=
    annotateEach_dryRun fs (definingFiles symbols)
  have hwritten := annotateProject_written fs root symbols options refusals
  have hcounts := annotateProject_countsOnce fs root symbols options refusals
  have hfiles : ∀ {file}, file ∈ definingFiles symbols → file ∈ symbols.map Symbol.filePath :=
    fun hfile => List.mem_dedup.mp ((definingFiles_perm symbols).mem_iff.mp hfile)
  have hupdated : ∀ file ∈ (annotateProject fs root symbols options false refusals).2.updated,
      file ∈ symbols.map Symbol.filePath := by
    intro file hfile
    obtain ⟨unchanged, failed, unstyled, hperm, -⟩ := hcounts false
    have hcounted := hperm.mem_iff.mp (List.mem_append_left _
      (List.mem_append_left _ (List.mem_append_left _ hfile)))
    exact List.mem_dedup.mp (List.mem_of_mem_filter hcounted)
  refine ⟨?_, hdry, hwritten, hcounts, ?_⟩
  · intro dryRun l hl
    cases dryRun with
    | true => exact absurd (by rw [hdry]) hl
    | false =>
      obtain ⟨file, hfile, target⟩ := not_not.mp fun hnone => hl (hwritten.rewritten.face l hnone)
      obtain ⟨hplace, base, hbase, hholds⟩ := locateWithin_eq_ok target.located
      exact ⟨rfl, base, file, hbase, hholds, hupdated file hfile, hplace, target.entries, target.style⟩
  · intro hapart hfree
    have hpairwise : (definingFiles symbols).Pairwise fun f g => ∀ place,
        fs.locate (joinPath root f) = .ok place → fs.locate (joinPath root g) ≠ .ok place :=
      ((definingFiles_perm symbols).nodup_iff.mpr (List.nodup_dedup _)).imp_of_mem
        fun hf hg hne => hapart _ (hfiles hf) _ (hfiles hg) hne
    exact congrArg AnnotateReport.ofOutcomes (outcomes_eq_dryRun (.refl (fun _ => False) fs)
      hpairwise (fun _ _ _ _ => id) fun file hfile => hfree file (hfiles hfile))

/-- A project with a file, a link to another file and a file outside. -/
private def sampleProject : FileSystem :=
  ⟨.directory [
    ("out.js".toList, .file "function h() {}\n".toUTF8),
    ("p".toList, .directory [
      ("a.js".toList, .file "function f() {}\n".toUTF8),
      ("b.js".toList, .link "c.js".toList),
      ("c.js".toList, .file "function g() {}\n".toUTF8)])], []⟩

/-- A used function at the start of a file. -/
private def sampleFunction (file name : String) : Symbol :=
  ⟨name, name, .function, file, ⟨0, 9⟩, ⟨⟨0, 9⟩, ⟨0, 10⟩⟩, none, none,
    [⟨"d.js", ⟨4, 0⟩, ⟨⟨4, 0⟩, ⟨4, 1⟩⟩, name ++ "()", .call⟩]⟩

/-- A function in each of three files, the last one outside. -/
private def sampleSymbols : List Symbol :=
  [sampleFunction "a.js" "f", sampleFunction "b.js" "g", sampleFunction "../out.js" "h"]

private theorem locate_a : sampleProject.locate (joinPath "/p" "a.js") =
    .ok ["p".toList, "a.js".toList] := by
  have hsteps : steps (joinPath "/p" "a.js").toList = ["p".toList, "a.js".toList] := by decide
  rw [locate, follow, if_neg (by decide), hsteps]
  simp only [walk_cons, walk]
  decide

private theorem locate_b : sampleProject.locate (joinPath "/p" "b.js") =
    .ok ["p".toList, "c.js".toList] := by
  have hsteps : steps (joinPath "/p" "b.js").toList = ["p".toList, "b.js".toList] := by decide
  have hwalk := calc
    walk .find sampleProject.top 40 [] ["p".toList, "b.js".toList]
      = walk .find sampleProject.top 40 ["p".toList] ["b.js".toList] := by rw [walk_cons]; rfl
    _ = walk .find sampleProject.top 39 ["p".toList] ["c.js".toList] := by rw [walk_cons]; rfl
    _ = .ok (.found ["p".toList, "c.js".toList]) := by simp only [walk_cons, walk]; decide
  rw [locate, follow, if_neg (by decide), hsteps]
  exact congrArg (·.bind Resolved.place) hwalk

private theorem locate_out : sampleProject.locate (joinPath "/p" "../out.js") =
    .ok ["out.js".toList] := by
  have hsteps : steps (joinPath "/p" "../out.js").toList =
      ["p".toList, "..".toList, "out.js".toList] := by decide
  rw [locate, follow, if_neg (by decide), hsteps]
  simp only [walk_cons, walk]
  decide

/-- Where the three files lead. -/
private def samplePlace (file : String) : Location :=
  if file = "a.js" then ["p".toList, "a.js".toList]
  else if file = "b.js" then ["p".toList, "c.js".toList]
  else ["out.js".toList]

/-- A file that is none of the three is closed to writers. -/
private def sampleRefusals (l : Location) : Option SystemError :=
  if l = ["etc".toList] then some .accessDenied else none

theorem annotateProject_effect_sample :
    (∀ file ∈ sampleSymbols.map Symbol.filePath,
      hasEntries file sampleSymbols ({} : AnnotateOptions).entries = true) ∧
    (annotateProject sampleProject "/p" sampleSymbols {} false sampleRefusals).2 =
      (annotateProject sampleProject "/p" sampleSymbols {} true sampleRefusals).2 := by
  have hlocate : ∀ file ∈ sampleSymbols.map Symbol.filePath,
      sampleProject.locate (joinPath "/p" file) = .ok (samplePlace file) := by
    intro file hfile
    have hcases : file = "a.js" ∨ file = "b.js" ∨ file = "../out.js" := by
      simpa [sampleSymbols, sampleFunction] using hfile
    rcases hcases with rfl | rfl | rfl
    · exact locate_a
    · exact locate_b
    · exact locate_out
  refine ⟨by decide +kernel, ?_⟩
  refine (annotateProject_effect sampleProject "/p" sampleSymbols {} sampleRefusals).2.2.2.2 ?_ ?_
  · intro f hf g hg hne place hplace
    have hdistinct : ∀ f ∈ sampleSymbols.map Symbol.filePath, ∀ g ∈ sampleSymbols.map Symbol.filePath,
        f ≠ g → samplePlace g ≠ samplePlace f := by decide
    obtain rfl : samplePlace f = place := Except.ok.inj ((hlocate f hf).symm.trans hplace)
    rw [hlocate g hg]
    exact fun heq => hdistinct f hf g hg hne (Except.ok.inj heq)
  · intro file hfile place hplace
    have hopen : ∀ file ∈ sampleSymbols.map Symbol.filePath, sampleRefusals (samplePlace file) = none := by
      decide
    obtain rfl : samplePlace file = place := Except.ok.inj ((hlocate file hfile).symm.trans hplace)
    exact hopen file hfile

end Project

end Concordance
