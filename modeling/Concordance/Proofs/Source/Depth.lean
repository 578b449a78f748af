import Concordance.Proofs.Source.Braces

/-!
The depth of nesting that a tracker answers, and the brace that closes another one.

A tracker that moves on from offset to offset counts the braces met before each of them, as a fresh
one does that moves there at once (`depths_eq_map`). Behind an opening brace it counts what the search
for the closing one counts, less that brace, up to the closing one (`depth_add_one_eq_balance`). So its
count is zero there, and never has to be kept from falling below zero before. Main statement:
`depths_depthTracker`.
-/

namespace Concordance

open Text

namespace DepthTracker

/-- The answers of a tracker that moves on from offset to offset. -/
def depths : DepthTracker → List Nat → List Nat
  | _, [] => []
  | t, offset :: rest => (t.advanceTo offset).depth :: depths (t.advanceTo offset) rest

/-- A tracker does not move back. -/
theorem advanceTo_advanceTo_of_le {target target' : Nat} (h : target' ≤ target) (t : DepthTracker) :
    (t.advanceTo target).advanceTo target' = t.advanceTo target := by
  obtain ⟨depth, quotes, reading, comments, offset, rest⟩ := t
  unfold DepthTracker.advanceTo
  dsimp only
  induction rest generalizing depth reading comments offset with
  | nil => rfl
  | cons c cs ih =>
    by_cases hlt : offset < target
    · rw [DepthTracker.advance, if_pos hlt]
      exact ih ..
    · rw [DepthTracker.advance, if_neg hlt]
      dsimp only
      rw [DepthTracker.advance, if_neg (by omega)]

/-- A tracker that was asked twice is where the larger offset takes it. -/
theorem advanceTo_advanceTo_max (t : DepthTracker) (target target' : Nat) :
    (t.advanceTo target).advanceTo target' = t.advanceTo (max target target') := by
  rcases Nat.le_total target target' with h | h
  · rw [Nat.max_eq_right h, advanceTo_advanceTo h]
  · rw [Nat.max_eq_left h, advanceTo_advanceTo_of_le h]

/-- At offsets in ascending order the answers are those of trackers that move there at once. -/
theorem depths_eq_map (t : DepthTracker) {offsets : List Nat} (h : offsets.Pairwise (· ≤ ·)) :
    t.depths offsets = offsets.map fun offset => (t.advanceTo offset).depth := by
  induction offsets generalizing t with
  | nil => rfl
  | cons offset rest ih =>
    obtain ⟨hfirst, hrest⟩ := List.pairwise_cons.mp h
    rw [depths, ih _ hrest, List.map_cons]
    congr 1
    refine List.map_congr_left fun later hlater => ?_
    rw [advanceTo_advanceTo (hfirst later hlater)]

end DepthTracker

section Ordered

variable {code front back : List CodeChar} {x : CodeChar}

/-- What stands before an offset is a first part of code in the order of the text. -/
theorem exists_append_of_pairwise (h : code.Pairwise fun x y => x.offset < y.offset) (offset : Nat) :
    ∃ rest, code = code.filter (·.offset < offset) ++ rest := by
  induction code with
  | nil => exact ⟨[], rfl⟩
  | cons x code ih =>
    obtain ⟨hfirst, hrest⟩ := List.pairwise_cons.mp h
    by_cases hlt : x.offset < offset
    · obtain ⟨rest, hcode⟩ := ih hrest
      refine ⟨rest, ?_⟩
      rw [List.filter_cons_of_pos (by simpa using hlt), List.cons_append, ← hcode]
    · have hnone : (x :: code).filter (·.offset < offset) = [] := by
        simp only [List.filter_eq_nil_iff, List.forall_mem_cons, decide_eq_true_eq]
        exact ⟨hlt, fun y hy => by have := hfirst y hy; omega⟩
      exact ⟨x :: code, by rw [hnone, List.nil_append]⟩

theorem filter_lt_of_append (h : (front ++ x :: back).Pairwise fun x y => x.offset < y.offset) :
    (front ++ x :: back).filter (·.offset < x.offset) = front := by
  obtain ⟨-, hback, hapart⟩ := List.pairwise_append.mp h
  obtain ⟨hfirst, -⟩ := List.pairwise_cons.mp hback
  rw [List.filter_append, List.filter_eq_self.mpr, List.filter_eq_nil_iff.mpr, List.append_nil]
  · simp only [List.forall_mem_cons, decide_eq_true_eq]
    exact ⟨Nat.lt_irrefl _, fun y hy => by have := hfirst y hy; omega⟩
  · intro y hy
    exact decide_eq_true (hapart y hy x List.mem_cons_self)

/-- While a search for the closing brace goes on, the depth behind the brace that it starts with is
the balance. -/
theorem foldl_braceDepth_of_searchList {depth : Nat}
    (h : searchList closingBrace (depth + 1) code = none) :
    ((code.foldl (fun depth x => braceDepth depth x.char) depth : Nat) : Int) =
      depth + braceBalance code := by
  induction code generalizing depth with
  | nil => simp
  | cons x code ih =>
    rw [searchList_closingBrace_cons] at h
    split at h
    · cases h
    · next hnot =>
      have hstep : (braceDepth depth x.char : Int) = depth + braceBalance [x] := by
        rw [closes_nil_iff, not_and] at hnot
        rw [braceBalance_singleton, braceDepth]
        by_cases hopen : x.char = '{'
        · simp [hopen]
        by_cases hclose : x.char = '}'
        · have := hnot hclose
          rw [if_neg hopen, if_pos hclose, if_neg hopen, if_pos hclose]
          omega
        · simp [hopen, hclose]
      have hcount : (depth : Int) + 1 + braceBalance [x] = (braceDepth depth x.char : Nat) + 1 := by
        omega
      rw [hcount] at h
      rw [List.foldl_cons, ih h, hstep, braceBalance_cons x code, Int.add_assoc]

end Ordered

namespace SourceText

variable {s : SourceText} {opening close : Nat}

/-- A tracker counts the braces of the code from its start that stand before the offset. -/
theorem depth_depthTracker (s : SourceText) (start offset : Nat) :
    ((s.depthTracker start).advanceTo offset).depth =
      ((s.codeFrom start).filter (·.offset < offset)).foldl
        (fun depth x => braceDepth depth x.char) 0 :=
  depth_advance offset ..

/-- A brace that another one closes opens no literal. -/
theorem notMem_quotes_of_matchingBrace? (h : s.matchingBrace? opening = some close) :
    '{' ∉ s.rules.quotes := by
  intro hquote
  have hmeets := meets_codeFrom (onBoundary_of_charAt? (charAt?_of_matchingBrace? h))
  obtain ⟨front, back, hcode, hone⟩ := exists_front_of_matchingBrace? h
  have hnone : '{' ∉ front.map CodeChar.char := by
    intro hmem
    obtain ⟨y, hy, hopen⟩ := List.mem_map.mp hmem
    obtain ⟨-, -, -, hnot⟩ := hmeets.of_mem (x := y) (by simp [hcode, hy])
    exact hnot (hopen ▸ hquote)
  rw [braceBalance, List.count_eq_zero.mpr hnone] at hone
  omega

theorem codeFrom_of_matchingBrace? (hfree : s.inComment opening = false)
    (h : s.matchingBrace? opening = some close) :
    s.codeFrom opening = ⟨opening, '{'⟩ :: s.codeFrom (opening + 1) :=
  codeFrom_of_charAt? (charAt?_of_matchingBrace? h) hfree (notMem_quotes_of_matchingBrace? h)

theorem pairwise_codeFrom_of_matchingBrace? (h : s.matchingBrace? opening = some close) :
    (s.codeFrom opening).Pairwise fun x y => x.offset < y.offset :=
  (meets_codeFrom (onBoundary_of_charAt? (charAt?_of_matchingBrace? h))).pairwise

/-- Between a brace and the one that closes it, a tracker that starts behind the first counts what the
search counts, less that brace. -/
theorem depth_add_one_eq_balance (hfree : s.inComment opening = false)
    (h : s.matchingBrace? opening = some close) {offset : Nat} (hlt : opening < offset)
    (hle : offset ≤ close) :
    (((s.depthTracker (opening + 1)).advanceTo offset).depth : Int) + 1 =
      braceBalance ((s.codeFrom opening).filter (·.offset < offset)) := by
  obtain ⟨rest, hcode⟩ := exists_append_of_pairwise (pairwise_codeFrom_of_matchingBrace? h) offset
  have hnone :
      searchList closingBrace 0 ((s.codeFrom opening).filter (·.offset < offset)) = none := by
    refine searchList_eq_none_of_before (charAt?_of_matchingBrace? h) hcode fun c hc x hx => ?_
    obtain rfl := Option.some.inj (h.symm.trans hc)
    have hx := of_decide_eq_true (List.mem_filter.mp hx).2
    omega
  rw [codeFrom_of_matchingBrace? hfree h, List.filter_cons_of_pos (by simpa using hlt)] at hnone ⊢
  rw [searchList_closingBrace_cons, if_neg (by simp [Closes]), braceBalance_opening] at hnone
  rw [depth_depthTracker, @foldl_braceDepth_of_searchList _ 0 hnone, braceBalance_cons,
    braceBalance_opening]
  omega

theorem depth_eq_zero_of_matchingBrace? (hfree : s.inComment opening = false)
    (h : s.matchingBrace? opening = some close) :
    ((s.depthTracker (opening + 1)).advanceTo close).depth = 0 := by
  have hsorted := pairwise_codeFrom_of_matchingBrace? h
  obtain ⟨front, back, hcode, hone⟩ := exists_front_of_matchingBrace? h
  have hlt : opening < close := by
    have hmem : ⟨close, '}'⟩ ∈ s.codeFrom opening := by simp [hcode]
    rw [codeFrom_of_matchingBrace? hfree h] at hsorted hmem
    rcases List.mem_cons.mp hmem with heq | hmem
    · cases heq
    · exact (List.pairwise_cons.mp hsorted).1 _ hmem
  have hdepth := depth_add_one_eq_balance hfree h hlt (Nat.le_refl close)
  rw [hcode] at hsorted hdepth
  rw [filter_lt_of_append hsorted, hone] at hdepth
  omega

/-- Each closing brace in between is met at a depth above zero. -/
theorem depth_pos_of_mem_codeFrom (hfree : s.inComment opening = false)
    (h : s.matchingBrace? opening = some close) {offset : Nat}
    (hmem : ⟨offset, '}'⟩ ∈ s.codeFrom (opening + 1)) (hltc : offset < close) :
    0 < ((s.depthTracker (opening + 1)).advanceTo offset).depth := by
  have hsorted := pairwise_codeFrom_of_matchingBrace? h
  have hfirst := codeFrom_of_matchingBrace? hfree h
  have hlt : opening < offset := by
    rw [hfirst] at hsorted
    exact (List.pairwise_cons.mp hsorted).1 _ hmem
  obtain ⟨front, back, hcode⟩ := List.append_of_mem (hfirst ▸ List.mem_cons_of_mem _ hmem)
  have hdepth := depth_add_one_eq_balance hfree h hlt (Nat.le_of_lt hltc)
  rw [hcode] at hsorted hdepth
  rw [filter_lt_of_append hsorted] at hdepth
  -- a brace stays open behind it
  have hpos : 0 < braceBalance (front ++ [⟨offset, '}'⟩]) := by
    refine balance_pos_of_before (charAt?_of_matchingBrace? h) hfree
      (notMem_quotes_of_matchingBrace? h) (hcode.trans (List.append_cons ..)) ?_ (by simp)
    intro c hc x hx
    obtain rfl := Option.some.inj (h.symm.trans hc)
    rcases List.mem_append.mp hx with hx | hx
    · exact Nat.lt_trans ((List.pairwise_append.mp hsorted).2.2 x hx _ List.mem_cons_self) hltc
    · rw [List.mem_singleton.mp hx]
      exact hltc
  rw [braceBalance_append, braceBalance_closing] at hpos
  omega

/-- The answers of a tracker at offsets in ascending order are those of fresh ones that move there at
once: the depth of the braces met since its start. Behind a brace outside comments and up to the one
that closes it, a tracker that starts between them counts what the search for that one counts, less the
first brace. At the closing brace its answer is zero, and before every closing brace that it meets on
the way there it is not. -/
theorem depths_depthTracker (s : SourceText) :
    (∀ start offsets, offsets.Pairwise (· ≤ ·) →
      (s.depthTracker start).depths offsets =
        offsets.map fun offset => ((s.depthTracker start).advanceTo offset).depth) ∧
    (∀ start offset, ((s.depthTracker start).advanceTo offset).depth =
      ((s.codeFrom start).filter (·.offset < offset)).foldl
        (fun depth x => braceDepth depth x.char) 0) ∧
    ∀ opening close, s.inComment opening = false → s.matchingBrace? opening = some close →
      (∀ offset, opening < offset → offset ≤ close →
        (((s.depthTracker (opening + 1)).advanceTo offset).depth : Int) + 1 =
          braceBalance ((s.codeFrom opening).filter (·.offset < offset))) ∧
      ((s.depthTracker (opening + 1)).advanceTo close).depth = 0 ∧
      ∀ offset, ⟨offset, '}'⟩ ∈ s.codeFrom (opening + 1) → offset < close →
        0 < ((s.depthTracker (opening + 1)).advanceTo offset).depth := by
  refine ⟨fun start offsets h => (s.depthTracker start).depths_eq_map h, depth_depthTracker s, ?_⟩
  intro opening close hfree hclose
  refine ⟨fun offset => depth_add_one_eq_balance hfree hclose, ?_, ?_⟩
  · exact depth_eq_zero_of_matchingBrace? hfree hclose
  · exact fun offset => depth_pos_of_mem_codeFrom hfree hclose

/-- The tracker is asked within a literal and within a comment. -/
theorem depths_depthTracker_braced :
    braced.inComment 2 = false ∧ braced.matchingBrace? 2 = some 20 ∧
      (braced.depthTracker 3).depths [5, 12, 17, 20] =
        [5, 12, 17, 20].map (fun offset => ((braced.depthTracker 3).advanceTo offset).depth) ∧
      (braced.depthTracker 3).depths [5, 12, 17, 20] = [0, 0, 1, 0] ∧
      ⟨18, '}'⟩ ∈ braced.codeFrom 3 ∧ 0 < ((braced.depthTracker 3).advanceTo 18).depth := by
  have hfree : braced.inComment 2 = false := by decide +kernel
  have hclose : braced.matchingBrace? 2 = some 20 := by decide +kernel
  have hmet : ⟨18, '}'⟩ ∈ braced.codeFrom 3 := by decide +kernel
  obtain ⟨hdepths, -, hbetween⟩ := depths_depthTracker braced
  obtain ⟨-, -, hpos⟩ := hbetween 2 20 hfree hclose
  exact ⟨hfree, hclose, hdepths 3 _ (by decide), by decide +kernel, hmet, hpos 18 hmet (by decide)⟩

end SourceText

end Concordance
