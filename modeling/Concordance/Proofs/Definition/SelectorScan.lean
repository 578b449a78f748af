import Concordance.Definition.Stylesheet
import Concordance.Proofs.Source.ByteCode

/-!
The scan for selectors over the bytes of a stylesheet.

The scan cuts the head of a block out of the text by its bytes, which fails where a cut lies within a
character or the head would start behind its end. A step passes over a comment, a literal or an
interpolation, enters or leaves a block, or passes over one byte. Every step leads on (`lt_of_step`), so
the scan ends (`selectorsFrom`).
-/

namespace Concordance

open Text Digest SourceText

namespace Bytewise

section Progress

variable {rules : LexicalRules} {bytes : List UInt8} {offset close : Nat}

/-- A search that answers with a place it has met finds none before its start. -/
theorem le_of_search {σ : Type} {visit : σ → CodeChar → Verdict σ}
    (hvisit : ∀ state x n, visit state x = .stop (some n) → n = x.offset) {state : σ} {n : Nat}
    (h : search visit rules bytes state offset = some n) : offset ≤ n := by
  fun_induction search visit rules bytes state offset with
  | case1 state offset hlt stop hcomment ih =>
    exact Nat.le_trans (lt_of_commentEnd? hcomment).le (ih h)
  | case2 state offset hlt hfree stop hliteral ih =>
    exact Nat.le_trans (lt_of_stringEnd? hliteral).le (ih h)
  | case3 state offset hlt hfree hnone next hgo ih => exact Nat.le_of_succ_le (ih h)
  | case4 state offset hlt hfree hnone answer hstop =>
    subst h
    exact (hvisit _ _ _ hstop).ge
  | case5 => cases h

theorem le_of_matchingBrace? (h : matchingBrace? rules bytes offset = some close) :
    offset ≤ close := by
  unfold matchingBrace? at h
  split at h
  · refine le_of_search (fun depth x n hstop => ?_) h
    unfold closingBrace at hstop
    split at hstop
    · cases hstop
    · split at hstop
      · split at hstop
        · exact (Option.some.inj (Verdict.stop.inj hstop)).symm
        · cases hstop
      · cases hstop
  · cases h

end Progress

/-- The text between two bytes, if they stand in this order and both between characters. -/
def slice? (s : SourceText) (start stop : Nat) : Option (List Char) :=
  if start ≤ stop ∧ isBoundary (utf8 s.chars) start ∧ isBoundary (utf8 s.chars) stop then
    some (s.slice start stop)
  else none

end Bytewise

namespace Stylesheet.Bytewise

open Concordance.Bytewise

/-- Where the scan for selectors stands. -/
structure Scan where
  /-- Where the text before the next block starts. -/
  head : Nat
  /-- The blocks that are open, the innermost first. -/
  blocks : List BlockKind
  /-- The byte that is read next. -/
  offset : Nat

/-- What a step of the scan leads to. -/
inductive Outcome where
  /-- The scan ends. -/
  | stop (notices : List Notice)
  /-- It goes on, with the selectors of a rule. -/
  | next (symbols : List Symbol) (scan : Scan)

/-- What the head of a block leads to. -/
def blockStep (s : SourceText) (path : String) (scan : Scan) (text : List Char) : Outcome :=
  let kind := if scan.blocks.head? = some .other then .other else blockKind text
  let inner := ⟨scan.offset + 1, kind :: scan.blocks, scan.offset + 1⟩
  if kind = .rule then
    match matchingBrace? s.rules (utf8 s.chars) scan.offset with
    | none => .stop [.rulesStopped path (s.lineOf scan.offset + 1)]
    | some close => .next (selectorsOf s path scan.head scan.offset close) inner
  else .next [] inner

/-- What a byte of code leads to. -/
def codeStep (s : SourceText) (path : String) (scan : Scan) (b : UInt8) : Option Outcome :=
  if b = '{'.toUInt8 then
    if 0 < scan.offset ∧ (utf8 s.chars)[scan.offset - 1]? = some '#'.toUInt8 then
      match matchingBrace? s.rules (utf8 s.chars) scan.offset with
      | none => some (.stop [.interpolationStopped path])
      | some close => some (.next [] { scan with offset := close + 1 })
    else (slice? s scan.head scan.offset).map (blockStep s path scan)
  else if b = '}'.toUInt8 then
    some (.next [] ⟨scan.offset + 1, scan.blocks.tail, scan.offset + 1⟩)
  else if b = ';'.toUInt8 then some (.next [] ⟨scan.offset + 1, scan.blocks, scan.offset + 1⟩)
  else some (.next [] { scan with offset := scan.offset + 1 })

/-- The step of the scan at a byte, if no cut fails. -/
def step (s : SourceText) (path : String) (scan : Scan) (b : UInt8) : Option Outcome :=
  match commentEnd? (comments s.rules (utf8 s.chars)) scan.offset with
  | some stop =>
    (slice? s scan.head scan.offset).map fun text =>
      .next [] { scan with head := if text.all isBlank then stop else scan.head, offset := stop }
  | none =>
    match stringEnd? s.rules (utf8 s.chars) scan.offset with
    | some stop => some (.next [] { scan with offset := stop })
    | none => codeStep s path scan b

theorem lt_of_codeStep {s : SourceText} {path : String} {scan next : Scan} {b : UInt8}
    {symbols : List Symbol} (h : codeStep s path scan b = some (.next symbols next)) :
    scan.offset < next.offset := by
  unfold codeStep at h
  split at h
  · split at h
    · split at h
      · cases h
      · next close hclose =>
        cases h
        exact Nat.lt_succ_of_le (le_of_matchingBrace? hclose)
    · obtain ⟨text, -, hnext⟩ := Option.map_eq_some_iff.mp h
      unfold blockStep at hnext
      dsimp only at hnext
      generalize (if scan.blocks.head? = some .other then BlockKind.other else blockKind text) = kind
        at hnext
      split at hnext
      · split at hnext <;> cases hnext
        exact Nat.lt_succ_self _
      · cases hnext
        exact Nat.lt_succ_self _
  · split at h
    · cases h
      exact Nat.lt_succ_self _
    · split at h <;> cases h <;> exact Nat.lt_succ_self _

/-- Every step leads on. -/
theorem lt_of_step {s : SourceText} {path : String} {scan next : Scan} {b : UInt8}
    {symbols : List Symbol} (h : step s path scan b = some (.next symbols next)) :
    scan.offset < next.offset := by
  unfold step at h
  split at h
  · next stop hcomment =>
    obtain ⟨text, -, hnext⟩ := Option.map_eq_some_iff.mp h
    cases hnext
    exact lt_of_commentEnd? hcomment
  · split at h
    · next stop hliteral =>
      cases h
      exact lt_of_stringEnd? hliteral
    · exact lt_of_codeStep h

/-- The selectors met by the scan, if no cut fails. -/
def selectorsFrom (s : SourceText) (path : String) (scan : Scan) : Option Extraction :=
  if hlt : scan.offset < (utf8 s.chars).length then
    match hstep : step s path scan (utf8 s.chars)[scan.offset] with
    | none => none
    | some (.stop notices) => some ⟨[], notices⟩
    | some (.next symbols next) =>
      (selectorsFrom s path next).map fun r => { r with symbols := symbols ++ r.symbols }
  else some ⟨[], []⟩
termination_by (utf8 s.chars).length - scan.offset
decreasing_by
  have := lt_of_step hstep
  omega

section Equations

variable {s : SourceText} {path : String} {scan next : Scan} {b : UInt8} {symbols : List Symbol}
  {notices : List Notice}

theorem selectorsFrom_of_length_le (h : s.length ≤ scan.offset) :
    selectorsFrom s path scan = some ⟨[], []⟩ := by
  rw [selectorsFrom, dif_neg]
  rwa [length_utf8, Nat.not_lt]

theorem selectorsFrom_of_next (hb : (utf8 s.chars)[scan.offset]? = some b)
    (h : step s path scan b = some (.next symbols next)) :
    selectorsFrom s path scan =
      (selectorsFrom s path next).map fun r => { r with symbols := symbols ++ r.symbols } := by
  obtain ⟨hlt, rfl⟩ := List.getElem?_eq_some_iff.mp hb
  rw [selectorsFrom, dif_pos hlt]
  split
  · next hfails => cases h.symm.trans hfails
  · next hstops => cases h.symm.trans hstops
  · next hnext =>
    obtain ⟨rfl, rfl⟩ := Outcome.next.inj (Option.some.inj (h.symm.trans hnext))
    rfl

/-- A step without selectors only leads on. -/
theorem selectorsFrom_of_silent (hb : (utf8 s.chars)[scan.offset]? = some b)
    (h : step s path scan b = some (.next [] next)) :
    selectorsFrom s path scan = selectorsFrom s path next := by
  rw [selectorsFrom_of_next hb h]
  cases selectorsFrom s path next <;> rfl

theorem selectorsFrom_of_stop (hb : (utf8 s.chars)[scan.offset]? = some b)
    (h : step s path scan b = some (.stop notices)) :
    selectorsFrom s path scan = some ⟨[], notices⟩ := by
  obtain ⟨hlt, rfl⟩ := List.getElem?_eq_some_iff.mp hb
  rw [selectorsFrom, dif_pos hlt]
  split
  · next hfails => cases h.symm.trans hfails
  · next hstops =>
    obtain rfl := Outcome.stop.inj (Option.some.inj (h.symm.trans hstops))
    rfl
  · next hnext => cases h.symm.trans hnext

end Equations

section Steps

variable {s : SourceText} {path : String} {scan : Scan} {b : UInt8} {stop : Nat}

/-- A cut between characters does not fail. -/
theorem slice?_eq_some {start stop : Nat} (hle : start ≤ stop)
    (hstart : onBoundary start s.chars = true) (hstop : onBoundary stop s.chars = true) :
    slice? s start stop = some (s.slice start stop) := by
  rw [slice?, isBoundary_utf8, isBoundary_utf8, if_pos ⟨hle, hstart, hstop⟩]

theorem step_of_comment (hrules : s.rules.Ascii) (scan : Scan) {text : List Char}
    (hcomment : s.commentEnd? scan.offset = some stop)
    (htext : slice? s scan.head scan.offset = some text) :
    step s path scan b = some (.next []
      { scan with head := if text.all isBlank then stop else scan.head, offset := stop }) := by
  rw [step, commentEnd?_utf8 hrules, hcomment, htext]
  rfl

theorem step_of_literal (hrules : s.rules.Ascii) (scan : Scan)
    (hfree : s.inComment scan.offset = false)
    (hliteral : s.stringEnd? scan.offset = some stop) :
    step s path scan b = some (.next [] { scan with offset := stop }) := by
  rw [step, commentEnd?_utf8 hrules, commentEnd?_eq_none hfree, stringEnd?_utf8 hrules, hliteral]

theorem step_of_code (hrules : s.rules.Ascii) (scan : Scan)
    (hfree : s.inComment scan.offset = false)
    (hliteral : s.stringEnd? scan.offset = none) :
    step s path scan b = codeStep s path scan b := by
  rw [step, commentEnd?_utf8 hrules, commentEnd?_eq_none hfree, stringEnd?_utf8 hrules, hliteral]

theorem codeStep_of_high (hb : 0x80 ≤ b.toNat) :
    codeStep s path scan b = some (.next [] { scan with offset := scan.offset + 1 }) := by
  rw [codeStep, if_neg (ne_toUInt8 hb (by decide)), if_neg (ne_toUInt8 hb (by decide)),
    if_neg (ne_toUInt8 hb (by decide))]

end Steps

end Stylesheet.Bytewise

end Concordance
