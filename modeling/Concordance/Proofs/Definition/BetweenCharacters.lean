import Concordance.Proofs.Definition.RuleHeads
import Concordance.Proofs.Definition.SelectorScan

/-!
Reading a text by its bytes never cuts a character.

The scan for selectors stands in code between two characters whenever it cuts, and the head starts where
the last brace, semicolon or comment in front of it ends. So no cut fails, and the scan of the bytes
answers as the reading of the code does (`selectorsFrom_utf8`): both stand at the same places
(`Meeting`), and a comment, a literal or a character takes both to the next one. Main statement:
`reading_between_characters`.
-/

namespace Concordance

open Text Digest SourceText

namespace Stylesheet

section Head

variable {s : SourceText} {start a b : Nat}

theorem mem_slice_of_charAt? {c : Char} (hchar : s.charAt? a = some c)
    (hstart : onBoundary start s.chars = true) (hle : start ≤ a) (hab : a < b) :
    c ∈ s.slice start b := by
  obtain ⟨front, back, hchars, hplace⟩ := charAt?_eq_some_iff.mp hchar
  have ha : onBoundary a s.chars = true := onBoundary_iff.mpr ⟨front, c :: back, hchars, hplace⟩
  rw [slice_eq_append hstart ha hle hab.le]
  refine List.mem_append_right _ ?_
  have hne : b - a ≠ 0 := by omega
  rw [slice, sliceBytes, hchars, ← hplace, dropBytes_byteLength, hplace, takeBytes_cons hne]
  exact List.mem_cons_self

/-- Where no comment starts in between, the head starts at the same place. -/
theorem headStart_of_noneStarts (hab : a ≤ b) (h : s.NoneStarts a b) (start : Nat) :
    headStart s start b = headStart s start a := by
  rw [headStart_eq, headStart_eq]
  refine congrArg (List.foldl _ start) (List.filter_congr fun span hspan => ?_)
  rw [decide_eq_decide]
  rcases h span hspan with hbefore | hbehind <;> omega

/-- Behind a comment the head has passed that comment, if it could. -/
theorem headStart_stop {span : Span} (hspan : span ∈ s.comments) (start : Nat) :
    headStart s start span.stop = passComment s (headStart s start span.start) span := by
  obtain ⟨front, back, hcomments⟩ := List.append_of_mem hspan
  have hlt := start_lt_stop hspan
  have hsorted := s.pairwise_comments
  have hspans : ∀ other ∈ front ++ span :: back, other.start < other.stop := fun other h =>
    start_lt_stop (hcomments ▸ h)
  rw [hcomments] at hsorted
  obtain ⟨-, hback, hfront⟩ := List.pairwise_append.mp hsorted
  have hfilter : ∀ place, span.start ≤ place → place ≤ span.stop →
      s.comments.filter (·.start < place) =
        front ++ if span.start < place then [span] else [] := by
    intro place hstart hstop
    have hbefore : front.filter (·.start < place) = front := by
      refine List.filter_eq_self.mpr fun other h => decide_eq_true ?_
      have hne := hspans other (List.mem_append_left _ h)
      have := hfront other h span List.mem_cons_self
      omega
    have hbehind : back.filter (·.start < place) = [] := by
      refine List.filter_eq_nil_iff.mpr fun other h => ?_
      have := (List.pairwise_cons.mp hback).1 other h
      rw [decide_eq_true_eq]
      omega
    rw [hcomments, List.filter_append, List.filter_cons, hbefore, hbehind]
    simp only [decide_eq_true_eq]
  rw [headStart_eq, headStart_eq, hfilter _ hlt.le (Nat.le_refl _),
    hfilter _ (Nat.le_refl _) hlt.le, if_pos hlt, if_neg (Nat.lt_irrefl _), List.append_nil,
    List.foldl_append]
  rfl

theorem headStart_self (h : ∀ span ∈ s.comments, span.start < a → span.stop ≤ a) :
    headStart s a a = a := by
  rw [headStart_eq]
  refine foldl_passComment_of_le fun span hspan => ?_
  obtain ⟨hspan, hlt⟩ := List.mem_filter.mp hspan
  exact ⟨start_lt_stop hspan, h span hspan (of_decide_eq_true hlt)⟩

/-- The comments that start before a place are those that start before a byte of code in front of it,
and others behind that byte. -/
theorem exists_filter_start_lt (hfree : s.inComment a = false) (hab : a ≤ b) :
    ∃ later, s.comments.filter (·.start < b) = s.comments.filter (·.start < a) ++ later ∧
      ∀ span ∈ later, a < span.start := by
  obtain ⟨front, back, hcomments, hfront, hback⟩ :=
    Bytewise.exists_front_of_starts s.pairwise_comments (fun _ => start_lt_stop) a
  have hbefore : ∀ place, a ≤ place → front.filter (·.start < place) = front := by
    intro place hplace
    refine List.filter_eq_self.mpr fun span h => decide_eq_true ?_
    have hstart := hfront span h
    -- none of them starts at the byte
    have hspan : span ∈ s.comments := hcomments ▸ List.mem_append_left _ h
    have hlt := start_lt_stop hspan
    have hnot : ¬ span.covers a = true := fun hcovers => by
      rw [inComment_iff.mpr ⟨span, hspan, hcovers⟩] at hfree
      cases hfree
    rw [Span.covers_iff] at hnot
    omega
  have hnone : back.filter (·.start < a) = [] :=
    List.filter_eq_nil_iff.mpr fun span h => by
      rw [decide_eq_true_eq]
      exact Nat.not_lt_of_lt (hback span h)
  refine ⟨back.filter (·.start < b), ?_, fun span h => hback span (List.mem_filter.mp h).1⟩
  rw [hcomments, List.filter_append, List.filter_append, hbefore b hab, hbefore a (Nat.le_refl a),
    hnone, List.append_nil]

/-- A character that is no white space keeps the head in front of it. -/
theorem foldl_passComment_of_char {c : Char} (hchar : s.charAt? a = some c)
    (hc : isBlank c = false) (hstart : onBoundary start s.chars = true) (hle : start ≤ a)
    {later : List Span} (hlater : ∀ span ∈ later, a < span.start) :
    later.foldl (passComment s) start = start := by
  induction later with
  | nil => rfl
  | cons span later ih =>
    obtain ⟨hspan, hlater⟩ := List.forall_mem_cons.mp hlater
    have hmem : c ∈ s.slice start span.start := mem_slice_of_charAt? hchar hstart hle hspan
    have hkept : passComment s start span = start := by
      refine if_neg fun h => ?_
      have hblank := List.all_eq_true.mp (Bool.and_eq_true_iff.mp h).2 c hmem
      rw [hc] at hblank
      cases hblank
    rw [List.foldl_cons, hkept]
    exact ih hlater

/-- A character that is no white space keeps the head from passing a comment behind it. -/
theorem headStart_of_char {c : Char} (hchar : s.charAt? a = some c) (hc : isBlank c = false)
    (hfree : s.inComment a = false) (hle : headStart s start a ≤ a)
    (hhead : onBoundary (headStart s start a) s.chars = true) (hab : a ≤ b) :
    headStart s start b = headStart s start a := by
  obtain ⟨later, hfilter, hlater⟩ := exists_filter_start_lt hfree hab
  rw [headStart_eq, hfilter, List.foldl_append, ← headStart_eq]
  exact foldl_passComment_of_char hchar hc hhead hle hlater

end Head

section Scan

variable {s : SourceText} {path : String} {resume start : Nat} {blocks : List BlockKind}
  {front back : List Char} {c : Char} {code : List CodeChar}

/-- Code before the place from which it is read on is passed over. -/
theorem selectorsFrom_append {lead : List CodeChar} (h : ∀ x ∈ lead, x.offset < resume)
    (code : List CodeChar) :
    selectorsFrom s path resume start blocks (lead ++ code) =
      selectorsFrom s path resume start blocks code := by
  induction lead with
  | nil => rfl
  | cons x lead ih =>
    obtain ⟨hx, hlead⟩ := List.forall_mem_cons.mp h
    rw [List.cons_append, selectorsFrom, if_pos hx, ih hlead]

theorem isInterpolation_iff_bytes {offset : Nat} (hchar : s.charAt? offset = some '{') :
    isInterpolation s offset = true ↔
      0 < offset ∧ (utf8 s.chars)[offset - 1]? = some '#'.toUInt8 := by
  have hmark : (utf8 s.chars)[offset - 1]? = some '#'.toUInt8 ↔ s.charAt? (offset - 1) = some '#' :=
    Bytewise.getElem?_eq_iff (by decide)
  rw [isInterpolation, beq_iff_eq, hmark, iff_and_self]
  intro hmark
  refine Nat.pos_of_ne_zero ?_
  rintro rfl
  rw [Nat.zero_sub, hchar] at hmark
  exact absurd (Option.some.inj hmark) (by decide)

/-- Where the scan stands at a cut, `start` being where the text before the next block starts but for the
comments in front of it. -/
def scanAt (s : SourceText) (front : List Char) (start : Nat) (blocks : List BlockKind) :
    Bytewise.Scan :=
  ⟨headStart s start (byteLength front), blocks, byteLength front⟩

/-- The scan of the bytes and the reading of the code both stand at the cut: it lies in code for the
comments, and `code` is what a run meets from it on. -/
structure Meeting (s : SourceText) (front back : List Char) (resume start : Nat)
    (code : List CodeChar) : Prop where
  inStep : s.InStep front back
  meets : s.Meets (byteLength front) code
  start_cut : onBoundary start s.chars = true
  start_le : start ≤ byteLength front
  resume_le : resume ≤ byteLength front

namespace Meeting

theorem head_le (h : Meeting s front back resume start code) :
    headStart s start (byteLength front) ≤ byteLength front :=
  headStart_le h.start_le fun _ => h.inStep.stop_le

/-- Cutting out the head does not fail. -/
theorem slice?_head (h : Meeting s front back resume start code) :
    Bytewise.slice? s (headStart s start (byteLength front)) (byteLength front) =
      some (s.slice (headStart s start (byteLength front)) (byteLength front)) :=
  Bytewise.slice?_eq_some h.head_le (onBoundary_headStart h.start_cut) h.inStep.onBoundary

/-- Both go on to a later cut. -/
theorem onward {front' back' : List Char} {code' : List CodeChar}
    (h : Meeting s front back resume start code) (hnext : s.InStep front' back')
    (hmeets : s.Meets (byteLength front') code') (hle : byteLength front ≤ byteLength front') :
    Meeting s front' back' resume start code' :=
  ⟨hnext, hmeets, h.start_cut, Nat.le_trans h.start_le hle, Nat.le_trans h.resume_le hle⟩

/-- The text before the next block starts at the cut. -/
theorem fresh (h : Meeting s front back resume start code) :
    Meeting s front back resume (byteLength front) code :=
  ⟨h.inStep, h.meets, h.inStep.onBoundary, Nat.le_refl _, h.resume_le⟩

theorem exists_byte (h : Meeting s front (c :: back) resume start code) :
    ∃ b, (utf8 s.chars)[byteLength front]? = some b := by
  have hlt : byteLength front < (utf8 s.chars).length := by
    have := c.utf8Size_pos
    rw [length_utf8, h.inStep.chars_eq, byteLength_append, byteLength_cons]
    omega
  exact ⟨_, List.getElem?_eq_getElem hlt⟩

/-- A comment takes the scan behind it, and the head too if nothing but white space came before. -/
theorem scan_comment (hrules : s.rules.Ascii) (h : Meeting s front (c :: back) resume start code)
    {next : List Char} (hspan : ⟨byteLength front, byteLength next⟩ ∈ s.comments)
    (hcomment : s.commentEnd? (byteLength front) = some (byteLength next)) :
    Bytewise.selectorsFrom s path (scanAt s front start blocks) =
      Bytewise.selectorsFrom s path (scanAt s next start blocks) := by
  obtain ⟨b, hb⟩ := h.exists_byte
  rw [Bytewise.selectorsFrom_of_silent hb
    (Bytewise.step_of_comment hrules (scanAt s front start blocks) hcomment h.slice?_head), scanAt,
    scanAt, headStart_stop hspan start, passComment, decide_eq_true h.head_le, Bool.true_and]

/-- A literal takes the scan behind it. -/
theorem scan_literal (hrules : s.rules.Ascii) (h : Meeting s front (c :: back) resume start code)
    {next : List Char} (hfree : s.inComment (byteLength front) = false)
    (hliteral : s.stringEnd? (byteLength front) = some (byteLength next))
    (hnone : s.NoneStarts (byteLength front) (byteLength next)) :
    Bytewise.selectorsFrom s path (scanAt s front start blocks) =
      Bytewise.selectorsFrom s path (scanAt s next start blocks) := by
  obtain ⟨b, hb⟩ := h.exists_byte
  obtain ⟨-, -, -, hlt⟩ := exists_quote_of_stringEnd? hliteral
  rw [Bytewise.selectorsFrom_of_silent hb
    (Bytewise.step_of_literal hrules (scanAt s front start blocks) hfree hliteral), scanAt, scanAt,
    headStart_of_noneStarts hlt.le hnone]

/-- A character outside ASCII takes the scan behind it, byte by byte. -/
theorem scan_high (hrules : s.rules.Ascii) (h : Meeting s front (c :: back) resume start code)
    (hc : 0x80 ≤ c.toNat) (hnone : s.NoneStarts (byteLength front) (byteLength (front ++ [c]))) :
    Bytewise.selectorsFrom s path (scanAt s front start blocks) =
      Bytewise.selectorsFrom s path (scanAt s (front ++ [c]) start blocks) := by
  rw [scanAt, scanAt, headStart_of_noneStarts (by rw [byteLength_concat]; omega) hnone,
    byteLength_concat]
  rw [byteLength_concat] at hnone
  refine Bytewise.eq_behind_of_high h.inStep.chars_eq hc (k := 0)
    (f := fun n => Bytewise.selectorsFrom s path ⟨headStart s start (byteLength front), blocks, n⟩)
    (fun n b hle hlt hb hhigh => ?_) (Nat.zero_le _)
  have hfree : s.inComment n = false := by
    rw [inComment, commentEnd?_eq_none_of_noneStarts
      (fun span hspan hbefore => Nat.le_trans (h.inStep.stop_le hspan hbefore) hle) hnone hlt]
    rfl
  have hliteral : s.stringEnd? n = none := by
    rw [← Bytewise.stringEnd?_utf8 hrules, Bytewise.stringEnd?_of_high hrules hb hhigh]
  exact Bytewise.selectorsFrom_of_silent hb
    ((Bytewise.step_of_code hrules _ hfree hliteral).trans (Bytewise.codeStep_of_high hhigh))

/-- What a character of ASCII that the run meets leads to. -/
theorem step_of_ascii (hrules : s.rules.Ascii) {later : List CodeChar}
    (h : Meeting s front (c :: back) resume start (⟨byteLength front, c⟩ :: later)) (path : String)
    (blocks : List BlockKind) (b : UInt8) :
    Bytewise.step s path (scanAt s front start blocks) b =
      Bytewise.codeStep s path (scanAt s front start blocks) b := by
  obtain ⟨-, hchar, hfree, hquote⟩ := h.meets.of_mem List.mem_cons_self
  exact Bytewise.step_of_code hrules (scanAt s front start blocks) hfree
    (Bytewise.stringEnd?_of_not_quote hchar (by simpa using hquote))

/-- Up to the brace that closes an interpolation the code is passed over, and no comment in it moves the
head. -/
theorem exists_behind_interpolation {cs : List Char} {later : List CodeChar}
    (h : Meeting s front ('{' :: cs) resume start (⟨byteLength front, '{'⟩ :: later)) {close : Nat}
    (hclose : s.matchingBrace? (byteLength front) = some close) :
    ∃ front' back' lead tail, later = lead ++ tail ∧ (∀ x ∈ lead, x.offset < close + 1) ∧
      byteLength front' = close + 1 ∧ byteLength front < close + 1 ∧
      Meeting s front' back' (close + 1) start tail ∧
      headStart s start (close + 1) = headStart s start (byteLength front) := by
  obtain ⟨-, hchar, hfree, -⟩ := h.meets.of_mem List.mem_cons_self
  obtain ⟨between, tail, hcode, -⟩ := exists_front_of_matchingBrace? hclose
  rw [(meets_codeFrom h.inStep.onBoundary).unique h.meets] at hcode
  cases between with
  | nil => cases (List.cons.inj hcode).1
  | cons x lead =>
    obtain ⟨rfl, rfl⟩ := List.cons.inj hcode
    obtain ⟨hfirst, hsorted⟩ := List.pairwise_cons.mp h.meets.pairwise
    have hlt : byteLength front < close := hfirst ⟨close, '}'⟩ (by simp)
    have hcut : s.Meets (byteLength front)
        ((⟨byteLength front, '{'⟩ :: lead) ++ ⟨close, '}'⟩ :: tail) := h.meets
    obtain ⟨front', back', hplace, hnext, hrest⟩ := h.inStep.exists_behind hcut
    have hbehind : byteLength (front' ++ ['}']) = close + 1 := by
      rw [byteLength_append, hplace]
      rfl
    have hhead : headStart s start (close + 1) = headStart s start (byteLength front) :=
      headStart_of_char hchar (show isBlank '{' = false by decide) hfree h.head_le
        (onBoundary_headStart h.start_cut) (by omega)
    have hstart := h.start_le
    refine ⟨front' ++ ['}'], back', lead ++ [⟨close, '}'⟩], tail, by simp, ?_, hbehind, by omega,
      ⟨hnext, hrest, h.start_cut, by omega, hbehind.ge⟩, hhead⟩
    intro x hx
    rcases List.mem_append.mp hx with hx | hx
    · exact Nat.lt_succ_of_lt
        ((List.pairwise_append.mp hsorted).2.2 x hx ⟨close, '}'⟩ List.mem_cons_self)
    · rw [List.mem_singleton.mp hx]
      exact Nat.lt_succ_self close

end Meeting

/-- From the cut on the scan of the bytes answers as the reading of the code. -/
def Agrees (s : SourceText) (path : String) (front : List Char) : Prop :=
  ∀ ⦃back : List Char⦄ ⦃resume start : Nat⦄ ⦃code : List CodeChar⦄ (blocks : List BlockKind),
    Meeting s front back resume start code →
      Bytewise.selectorsFrom s path (scanAt s front start blocks) =
        some (selectorsFrom s path resume start blocks code)

/-- Where the text before the next block starts at the cut. -/
theorem Agrees.fresh (hagrees : Agrees s path front) (h : Meeting s front back resume start code)
    (blocks : List BlockKind) :
    Bytewise.selectorsFrom s path ⟨byteLength front, blocks, byteLength front⟩ =
      some (selectorsFrom s path resume (byteLength front) blocks code) := by
  have hself : headStart s (byteLength front) (byteLength front) = byteLength front :=
    headStart_self fun _ => h.inStep.stop_le
  have hscan := hagrees blocks h.fresh
  rwa [scanAt, hself] at hscan

section Characters

variable {cs : List Char} {later : List CodeChar}

/-- The brace of an interpolation takes both behind the one that closes it. -/
theorem agrees_of_interpolation (hrules : s.rules.Ascii)
    (h : Meeting s front ('{' :: cs) resume start (⟨byteLength front, '{'⟩ :: later))
    (hagrees : ∀ front' back', s.InStep front' back' → byteLength front < byteLength front' →
      Agrees s path front')
    (hmark : isInterpolation s (byteLength front) = true) :
    Bytewise.selectorsFrom s path (scanAt s front start blocks) =
      some (selectorsFrom s path resume start blocks (⟨byteLength front, '{'⟩ :: later)) := by
  have hchar := charAt?_byteLength h.inStep.chars_eq
  have hb := Bytewise.getElem?_of_ascii (s := s) h.inStep.chars_eq (by decide)
  have hstep := h.step_of_ascii hrules path blocks '{'.toUInt8
  rw [Bytewise.codeStep, if_pos rfl, scanAt, if_pos ((isInterpolation_iff_bytes hchar).mp hmark),
    Bytewise.matchingBrace?_utf8 hrules] at hstep
  dsimp only at hstep
  rw [selectorsFrom, if_neg (Nat.not_lt_of_le h.resume_le), if_pos rfl, if_pos hmark]
  cases hclose : s.matchingBrace? (byteLength front) with
  | none =>
    rw [hclose] at hstep
    exact Bytewise.selectorsFrom_of_stop hb hstep
  | some close =>
    rw [hclose] at hstep
    obtain ⟨front', back', lead, tail, rfl, hlead, hbehind, hlt, hnext, hhead⟩ :=
      h.exists_behind_interpolation hclose
    have hscan := hagrees front' back' hnext.inStep (hbehind ▸ hlt) blocks hnext
    rw [scanAt, hbehind, hhead] at hscan
    rw [scanAt, Bytewise.selectorsFrom_of_silent hb hstep, hscan]
    exact congrArg some (selectorsFrom_append hlead tail).symm

/-- The brace of a block takes both into the block. -/
theorem agrees_of_block (hrules : s.rules.Ascii)
    (h : Meeting s front ('{' :: cs) resume start (⟨byteLength front, '{'⟩ :: later))
    (hnext : Meeting s (front ++ ['{']) cs resume start later)
    (hagrees : Agrees s path (front ++ ['{']))
    (hmark : isInterpolation s (byteLength front) = false) :
    Bytewise.selectorsFrom s path (scanAt s front start blocks) =
      some (selectorsFrom s path resume start blocks (⟨byteLength front, '{'⟩ :: later)) := by
  have hb := Bytewise.getElem?_of_ascii (s := s) h.inStep.chars_eq (by decide)
  have hbytes : ¬ (0 < byteLength front ∧
      (utf8 s.chars)[byteLength front - 1]? = some '#'.toUInt8) := by
    rw [← isInterpolation_iff_bytes (charAt?_byteLength h.inStep.chars_eq), hmark]
    exact Bool.false_ne_true
  have hinner := hagrees.fresh hnext
  rw [byteLength_concat, show '{'.utf8Size = 1 from rfl] at hinner
  have hstep := h.step_of_ascii hrules path blocks '{'.toUInt8
  have hslice := h.slice?_head
  rw [selectorsFrom, if_neg (Nat.not_lt_of_le h.resume_le), if_pos rfl, hmark,
    if_neg Bool.false_ne_true]
  unfold scanAt at hstep ⊢
  generalize headStart s start (byteLength front) = head at hstep hslice ⊢
  rw [Bytewise.codeStep, if_pos rfl, if_neg hbytes, hslice, Option.map_some, Bytewise.blockStep,
    Bytewise.matchingBrace?_utf8 hrules] at hstep
  dsimp only at hstep ⊢
  generalize (if blocks.head? = some .other then BlockKind.other
    else blockKind (s.slice head (byteLength front))) = kind at hstep ⊢
  split at hstep
  · next hrule =>
    rw [if_pos hrule]
    cases hclose : s.matchingBrace? (byteLength front) with
    | none =>
      rw [hclose] at hstep
      exact Bytewise.selectorsFrom_of_stop hb hstep
    | some close =>
      rw [hclose] at hstep
      rw [Bytewise.selectorsFrom_of_next hb hstep, hinner]
      rfl
  · next hrule =>
    rw [if_neg hrule, Bytewise.selectorsFrom_of_silent hb hstep, hinner]

/-- Any other character of code takes both behind it. -/
theorem agrees_of_other (hrules : s.rules.Ascii)
    (h : Meeting s front (c :: cs) resume start (⟨byteLength front, c⟩ :: later))
    (hnext : Meeting s (front ++ [c]) cs resume start later) (hagrees : Agrees s path (front ++ [c]))
    (hnone : s.NoneStarts (byteLength front) (byteLength (front ++ [c]))) (hc : c ≠ '{') :
    Bytewise.selectorsFrom s path (scanAt s front start blocks) =
      some (selectorsFrom s path resume start blocks (⟨byteLength front, c⟩ :: later)) := by
  rw [selectorsFrom, if_neg (Nat.not_lt_of_le h.resume_le), if_neg hc]
  rcases ascii_or_high c with ⟨hascii, -⟩ | ⟨hhigh, -⟩
  · have hb := Bytewise.getElem?_of_ascii h.inStep.chars_eq hascii
    have hfresh := hagrees.fresh hnext
    have hsame := hagrees blocks hnext
    have hbehind : byteLength (front ++ [c]) = byteLength front + 1 := by
      rw [byteLength_concat, utf8Size_of_ascii hascii]
    rw [scanAt, headStart_of_noneStarts (hbehind ▸ Nat.le_succ _) hnone, hbehind] at hsame
    rw [hbehind] at hfresh
    have hstep := h.step_of_ascii hrules path blocks c.toUInt8
    rw [Bytewise.codeStep, if_neg (toUInt8_ne hascii (by decide) hc)] at hstep
    by_cases hclose : c = '}'
    · rw [if_pos (congrArg _ hclose)] at hstep
      rw [Bytewise.selectorsFrom_of_silent hb hstep, if_pos hclose]
      exact hfresh blocks.tail
    rw [if_neg (toUInt8_ne hascii (by decide) hclose)] at hstep
    rw [if_neg hclose]
    by_cases hend : c = ';'
    · rw [if_pos (congrArg _ hend)] at hstep
      rw [Bytewise.selectorsFrom_of_silent hb hstep, if_pos hend]
      exact hfresh blocks
    · rw [if_neg (toUInt8_ne hascii (by decide) hend)] at hstep
      rw [Bytewise.selectorsFrom_of_silent hb hstep, if_neg hend]
      exact hsame
  · rw [if_neg (ne_of_high hhigh (by decide)), if_neg (ne_of_high hhigh (by decide)),
      h.scan_high hrules hhigh hnone]
    exact hagrees blocks hnext

end Characters

/-- From wherever the reading for comments stands in code, both answer alike. -/
theorem agrees_of_inStep (hrules : s.rules.Ascii) (path : String) (h : s.InStep front back) :
    Agrees s path front := by
  induction hn : s.length - byteLength front using Nat.strongRecOn generalizing front back with
  | ind n ih =>
    subst hn
    intro back resume start code blocks hmeeting
    cases back with
    | nil =>
      have hend : s.length ≤ byteLength front := by
        rw [length, hmeeting.inStep.chars_eq, List.append_nil]
      rw [hmeeting.meets.unique (.done hend), Bytewise.selectorsFrom_of_length_le hend]
      rfl
    | cons c cs =>
      have hsize := c.utf8Size_pos
      have hinside : byteLength front < s.length := by
        rw [length, hmeeting.inStep.chars_eq, byteLength_append, byteLength_cons]
        omega
      have hagrees : ∀ front' back', s.InStep front' back' →
          byteLength front < byteLength front' → Agrees s path front' :=
        fun front' back' hnext hlt => ih _ (by omega) hnext rfl
      have hbehind : ∀ inner, byteLength front < byteLength (front ++ c :: inner) := by
        intro inner
        rw [byteLength_append, byteLength_cons]
        omega
      rcases hmeeting.inStep.meets_cases hmeeting.meets with
        ⟨inner, rest, rfl, hspan, hcomment, hnext, hlater⟩ |
        ⟨inner, rest, rfl, hfree, hliteral, hnext, hnone, hlater⟩ |
        ⟨later, rfl, hfree, hquote, hnext, hnone, hlater⟩
      · rw [hmeeting.scan_comment hrules hspan hcomment]
        exact hagrees _ _ hnext (hbehind inner) blocks
          (hmeeting.onward hnext hlater (hbehind inner).le)
      · rw [hmeeting.scan_literal hrules hfree hliteral hnone]
        exact hagrees _ _ hnext (hbehind inner) blocks
          (hmeeting.onward hnext hlater (hbehind inner).le)
      · have hhere := hagrees _ _ hnext (hbehind [])
        have hmeeting' := hmeeting.onward hnext hlater (hbehind []).le
        by_cases hc : c = '{'
        · subst hc
          cases hmark : isInterpolation s (byteLength front) with
          | true => exact agrees_of_interpolation hrules hmeeting hagrees hmark
          | false => exact agrees_of_block hrules hmeeting hmeeting' hhere hmark
        · exact agrees_of_other hrules hmeeting hmeeting' hhere hnone hc

end Scan

/-- No cut of the scan fails, and it answers as the reading of the code of the text. -/
theorem selectorsFrom_utf8 {s : SourceText} (hrules : s.rules.Ascii) (path : String) :
    Bytewise.selectorsFrom s path ⟨0, [], 0⟩ = some (selectorsFrom s path 0 0 [] (s.codeFrom 0)) := by
  have hstart := onBoundary_zero s.chars
  exact (agrees_of_inStep hrules path s.inStep_start).fresh
    ⟨s.inStep_start, meets_codeFrom hstart, hstart, Nat.le_refl 0, Nat.le_refl 0⟩ []

end Stylesheet

namespace Bytewise

/-- The place lies in the bytes, between two characters. -/
def Cut (bytes : List UInt8) (n : Nat) : Prop :=
  n ≤ bytes.length ∧ isBoundary bytes n = true

theorem cut_of_onBoundary {text : List Char} {n : Nat} (h : onBoundary n text = true) :
    Cut (utf8 text) n := by
  rw [Cut, length_utf8, isBoundary_utf8]
  exact ⟨le_of_onBoundary h, h⟩

/-- Read by its bytes, a text answers as by its characters. Comments and literals end, and braces stand,
between two characters of the text, and comments and literals end behind any of their bytes. The scan
for selectors leads on with every step, and no cut of it fails: it answers as the reading of the
code. -/
theorem reading_between_characters (language : Language) (text : List Char) (path : String) :
    let rules := language.lexicalRules
    let bytes := utf8 text
    let s := SourceText.ofChars rules text
    (comments rules bytes = s.comments ∧ ∀ offset,
      commentEnd? (comments rules bytes) offset = s.commentEnd? offset ∧
      stringEnd? rules bytes offset = s.stringEnd? offset ∧
      matchingBrace? rules bytes offset = s.matchingBrace? offset ∧
      ∀ parens, findBlockOpen? rules bytes offset parens = s.findBlockOpen? offset parens) ∧
    ((∀ span ∈ s.comments, Cut bytes span.stop) ∧
      (∀ offset stop, s.commentEnd? offset = some stop → offset < stop ∧ Cut bytes stop) ∧
      (∀ offset stop, s.stringEnd? offset = some stop → offset < stop ∧ Cut bytes stop) ∧
      (∀ offset close, s.matchingBrace? offset = some close → Cut bytes close) ∧
      ∀ offset parens start, s.findBlockOpen? offset parens = some start → Cut bytes start) ∧
    (∀ scan b symbols next, Stylesheet.Bytewise.step s path scan b = some (.next symbols next) →
      scan.offset < next.offset) ∧
    Stylesheet.Bytewise.selectorsFrom s path ⟨0, [], 0⟩ =
      some (Stylesheet.selectorsFrom s path 0 0 [] (s.codeFrom 0)) := by
  intro rules bytes s
  have hrules : s.rules.Ascii := ascii_lexicalRules language
  refine ⟨⟨comments_utf8 hrules, fun offset => ⟨commentEnd?_utf8 hrules offset,
      stringEnd?_utf8 hrules offset, matchingBrace?_utf8 hrules offset,
      findBlockOpen?_utf8 hrules offset⟩⟩,
    ⟨fun span h => cut_of_onBoundary (onBoundary_stop h), fun offset stop h => ?_,
      fun offset stop h => ?_,
      fun offset close h => cut_of_onBoundary (onBoundary_of_matchingBrace? h),
      fun offset parens start h => cut_of_onBoundary (onBoundary_of_findBlockOpen? h)⟩,
    fun scan b symbols next => Stylesheet.Bytewise.lt_of_step,
    Stylesheet.selectorsFrom_utf8 hrules path⟩
  · obtain ⟨span, hspan, rfl, -, hlt⟩ := SourceText.commentEnd?_eq_some_iff.mp h
    exact ⟨hlt, cut_of_onBoundary (onBoundary_stop hspan)⟩
  · obtain ⟨-, -, -, hlt⟩ := exists_quote_of_stringEnd? h
    exact ⟨hlt, cut_of_onBoundary (onBoundary_of_stringEnd? h)⟩

/-- Characters of two bytes in a comment, a selector and a literal with an escaped quote. -/
def accentedRule : List Char :=
  "/*é*/.ü\x7ba:'é\\'ß'\x7d".toList

/-- The bytes 3 and 8 lie within characters. -/
theorem reading_between_characters_accentedRule :
    let s := SourceText.ofChars Language.css.lexicalRules accentedRule
    let bytes := utf8 accentedRule
    (commentEnd? (comments s.rules bytes) 3 = some 6 ∧ 3 < 6 ∧ Cut bytes 6) ∧
    (stringEnd? s.rules bytes 12 = some 20 ∧ 12 < 20 ∧ Cut bytes 20) ∧
    (findBlockOpen? s.rules bytes 8 0 = some 9 ∧ Cut bytes 9) ∧
    (matchingBrace? s.rules bytes 9 = some 20 ∧ Cut bytes 20) ∧
    (Stylesheet.Bytewise.step s "a.css" ⟨0, [], 0⟩ '/'.toUInt8 = some (.next [] ⟨6, [], 6⟩) ∧
      0 < 6) ∧
    (Stylesheet.Bytewise.selectorsFrom s "a.css" ⟨0, [], 0⟩).map (·.symbols.map Symbol.name) =
      some [".ü"] := by
  intro s bytes
  obtain ⟨⟨-, hsame⟩, ⟨-, hcomment, hliteral, hclose, hopen⟩, hstep, hscan⟩ :=
    reading_between_characters .css accentedRule "a.css"
  have hcommentEnd : s.commentEnd? 3 = some 6 := by decide +kernel
  have hstringEnd : s.stringEnd? 12 = some 20 := by decide +kernel
  have hblockOpen : s.findBlockOpen? 8 0 = some 9 := by decide +kernel
  have hbrace : s.matchingBrace? 9 = some 20 := by decide +kernel
  have hfirst : Stylesheet.Bytewise.step s "a.css" ⟨0, [], 0⟩ '/'.toUInt8 =
      some (.next [] ⟨6, [], 6⟩) := by
    have hzero : s.commentEnd? 0 = some 6 := by decide +kernel
    have htext : slice? s 0 0 = some [] := by decide +kernel
    exact Stylesheet.Bytewise.step_of_comment (ascii_lexicalRules .css) ⟨0, [], 0⟩ hzero htext
  refine ⟨⟨(hsame 3).1.trans hcommentEnd, hcomment 3 6 hcommentEnd⟩,
    ⟨(hsame 12).2.1.trans hstringEnd, hliteral 12 20 hstringEnd⟩,
    ⟨((hsame 8).2.2.2 0).trans hblockOpen, hopen 8 0 9 hblockOpen⟩,
    ⟨(hsame 9).2.2.1.trans hbrace, hclose 9 20 hbrace⟩,
    ⟨hfirst, hstep _ _ _ _ hfirst⟩, ?_⟩
  rw [hscan]
  decide +kernel

end Bytewise

end Concordance
