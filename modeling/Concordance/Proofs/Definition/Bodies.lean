import Concordance.Proofs.Definition.Anchor
import Concordance.Proofs.Source.Change

/-!
Blocks and depths of nesting, read off the code of the whole text.

Looking for a brace and counting braces pass over white space, so both depend on the visible code
alone. Main statements: `bodyFrom_eq` and `depth_advanceTo` (from a place outside literals),
`outermost_eq_filter` (what is kept is decided one by one), and `bodyFrom_move` and `depth_move` (both
move on with the code when lines without code change).
-/

namespace Concordance

open Text

section Search

variable {σ : Type} {visit : σ → CodeChar → Verdict σ}

/-- A search that passes over white space finds the same without it. -/
theorem searchList_filter (hblank : ∀ state x, isBlank x.char = true → visit state x = .go state)
    (state : σ) (code : List CodeChar) :
    searchList visit state (code.filter fun x => !isBlank x.char) =
      searchList visit state code := by
  induction code generalizing state with
  | nil => rfl
  | cons x code ih =>
    by_cases hx : isBlank x.char = true
    · rw [List.filter_cons_of_neg (by simp [hx]), ih, searchList, hblank state x hx]
    · rw [List.filter_cons_of_pos (by simp [hx]), searchList, searchList]
      split
      · exact ih _
      · rfl

/-- The verdict with its answer moved. -/
def Verdict.map (f : Nat → Nat) : Verdict σ → Verdict σ
  | .go state => .go state
  | .stop answer => .stop (answer.map f)

/-- A search that only tells the place of a character finds it where the character has moved. -/
theorem searchList_map {f : Nat → Nat}
    (hmap : ∀ state x, visit state (x.map f) = (visit state x).map f) (state : σ) (code : List CodeChar) :
    searchList visit state (code.map (CodeChar.map f)) = (searchList visit state code).map f := by
  induction code generalizing state with
  | nil => rfl
  | cons x code ih =>
    rw [List.map_cons, searchList, searchList, hmap]
    cases visit state x with
    | go next => exact ih next
    | stop answer => rfl

end Search

section Braces

variable {x : CodeChar}

theorem not_brace_of_isBlank (h : isBlank x.char = true) :
    x.char ≠ '{' ∧ x.char ≠ '}' ∧ x.char ≠ '(' ∧ x.char ≠ ')' ∧ x.char ≠ ';' := by
  refine ⟨?_, ?_, ?_, ?_, ?_⟩
  all_goals
    intro hx
    rw [hx] at h
    exact absurd h (by decide)

theorem closingBrace_of_isBlank (depth : Int) (h : isBlank x.char = true) :
    closingBrace depth x = .go depth := by
  obtain ⟨hopen, hclose, -⟩ := not_brace_of_isBlank h
  rw [closingBrace, if_neg hopen, if_neg hclose]

theorem blockOpen_of_isBlank (depth : Nat) (h : isBlank x.char = true) :
    blockOpen depth x = .go depth := by
  obtain ⟨hopen, -, hleft, hright, hsemi⟩ := not_brace_of_isBlank h
  rw [blockOpen, if_neg hleft, if_neg hright, if_neg fun h => hopen h.1, if_neg fun h => hsemi h.1]

theorem braceDepth_of_isBlank (depth : Nat) (h : isBlank x.char = true) :
    braceDepth depth x.char = depth := by
  obtain ⟨hopen, hclose, -⟩ := not_brace_of_isBlank h
  rw [braceDepth, if_neg hopen, if_neg hclose]

theorem closingBrace_map (f : Nat → Nat) (depth : Int) (x : CodeChar) :
    closingBrace depth (x.map f) = (closingBrace depth x).map f := by
  obtain ⟨offset, c⟩ := x
  by_cases hopen : c = '{'
  · simp [closingBrace, CodeChar.map, Verdict.map, hopen]
  by_cases hclose : c = '}'
  · by_cases hlast : depth - 1 = 0
    · simp [closingBrace, CodeChar.map, Verdict.map, hclose, hlast]
    · simp [closingBrace, CodeChar.map, Verdict.map, hclose, hlast]
  · simp [closingBrace, CodeChar.map, Verdict.map, hopen, hclose]

theorem blockOpen_map (f : Nat → Nat) (depth : Nat) (x : CodeChar) :
    blockOpen depth (x.map f) = (blockOpen depth x).map f := by
  obtain ⟨offset, c⟩ := x
  by_cases hleft : c = '('
  · simp [blockOpen, CodeChar.map, Verdict.map, hleft]
  by_cases hright : c = ')'
  · simp [blockOpen, CodeChar.map, Verdict.map, hright]
  by_cases hopen : c = '{' ∧ depth = 0
  · simp [blockOpen, CodeChar.map, Verdict.map, hopen]
  by_cases hsemi : c = ';' ∧ depth = 0
  · simp [blockOpen, CodeChar.map, Verdict.map, hsemi]
  · simp [blockOpen, CodeChar.map, Verdict.map, hleft, hright, hopen, hsemi]

theorem searchList_closingBrace {depth : Int} {offset : Nat} {code : List CodeChar}
    (h : searchList closingBrace depth code = some offset) :
    ∃ x ∈ code, x.char = '}' ∧ x.offset = offset := by
  induction code generalizing depth with
  | nil => cases h
  | cons x code ih =>
    rw [searchList] at h
    split at h
    · obtain ⟨y, hy, hfound⟩ := ih h
      exact ⟨y, List.mem_cons_of_mem x hy, hfound⟩
    · next answer hvisit =>
      subst h
      unfold closingBrace at hvisit
      split at hvisit
      · cases hvisit
      · split at hvisit
        · next hclose =>
          split at hvisit
          · exact ⟨x, List.mem_cons_self, hclose, by simpa using hvisit⟩
          · cases hvisit
        · cases hvisit

end Braces

/-- What follows the head of a declaration, moved. -/
def Body.map (f : Nat → Nat) : Body → Body
  | .missing => .missing
  | .unclosed start => .unclosed (f start)
  | .closed start stop => .closed (f start) (f stop)

/-- The block that opens after `start` in the code, where `parens` parentheses are open. -/
def bodyIn (code : List CodeChar) (start parens : Nat) : Body :=
  match searchList blockOpen parens (code.filter (start ≤ ·.offset)) with
  | none => .missing
  | some o =>
    match searchList closingBrace 0 (code.filter (o ≤ ·.offset)) with
    | none => .unclosed o
    | some c => .closed o c

/-- How many braces are open in the code from `start` to the byte. -/
def depthIn (code : List CodeChar) (start offset : Nat) : Nat :=
  (code.filter fun x => start ≤ x.offset && x.offset < offset).foldl
    (fun depth x => braceDepth depth x.char) 0

section Reading

variable {s : SourceText} {x : CodeChar}

/-- A visible character that is shown stands in no literal. -/
theorem CommentReading.inLiteral_of_shows {rules : LexicalRules} {r : CommentReading} {c : Char}
    {rest : List Char} (h : r.shows rules c rest = true) (hblank : isBlank c = false) :
    r.inLiteral = false := by
  simp only [shows, Bool.and_eq_true, beq_iff_eq, bne_iff_ne] at h
  obtain ⟨⟨hnext, -⟩, hquote⟩ := h
  cases r with
  | literal quote =>
    have hbreak : LexicalRules.breaksAt quote c = false := by
      have hc : c ≠ '\n' := by
        rintro rfl
        exact absurd hblank (by decide)
      simp [LexicalRules.breaksAt, hc]
    have hne : c ≠ quote := fun h => hquote (by rw [h])
    simp only [next, step, if_neg hne, hbreak, Bool.false_eq_true, ↓reduceIte] at hnext
    split at hnext <;> cases hnext
  | escaped quote => cases hnext
  | code => rfl
  | opening start => rfl
  | block start star => rfl
  | line start => rfl

/-- What is visible code stands in the text, outside literals, and so does what follows it. -/
theorem exists_of_mem_visibleCode (h : x ∈ s.visibleCode) :
    ∃ pre post, s.chars = pre ++ x.char :: post ∧ byteLength pre = x.offset ∧
      s.OutsideLiteral x.offset ∧ s.OutsideLiteral (x.offset + x.char.utf8Size) := by
  obtain ⟨hmem, hblank⟩ := List.mem_filter.mp h
  obtain ⟨pre, post, hchars, hoffset, hshows⟩ := exists_of_mem_codeChars hmem
  rw [Nat.zero_add] at hoffset
  refine ⟨pre, post, hchars, hoffset.symm, ?_, ?_⟩
  · rw [SourceText.OutsideLiteral, SourceText.readingAt, hchars, hoffset, takeBytes_byteLength,
      dropBytes_byteLength]
    exact CommentReading.inLiteral_of_shows hshows (by simpa using hblank)
  · have hcut : s.chars = (pre ++ [x.char]) ++ post := by rw [hchars, List.append_assoc]; rfl
    have hsize : x.offset + x.char.utf8Size = byteLength (pre ++ [x.char]) := by simp [hoffset]
    simp only [CommentReading.shows, Bool.and_eq_true, beq_iff_eq] at hshows
    rw [SourceText.OutsideLiteral, SourceText.readingAt, hcut, hsize, takeBytes_byteLength,
      dropBytes_byteLength, readAcross_append_left]
    show (CommentReading.next s.rules x.char post
      (readAcross s.rules .code pre (x.char :: post))).inLiteral = false
    rw [hshows.1.1]
    rfl

theorem filter_visibleCode (s : SourceText) (p : CodeChar → Bool) :
    (s.code.filter p).filter (fun x => !isBlank x.char) = s.visibleCode.filter p := by
  rw [SourceText.visibleCode, List.filter_filter, List.filter_filter]
  exact List.filter_congr fun x _ => Bool.and_comm _ _

/-- A search from a place outside literals is a search in the visible code. -/
theorem searchFrom_eq {σ : Type} {visit : σ → CodeChar → Verdict σ}
    (hblank : ∀ state x, isBlank x.char = true → visit state x = .go state) {offset : Nat}
    (h : s.OutsideLiteral offset) (state : σ) :
    s.searchFrom visit state (s.spotAt offset) =
      searchList visit state (s.visibleCode.filter (offset ≤ ·.offset)) := by
  rw [SourceText.searchFrom_spotAt, SourceText.codeFrom_eq_filter h, ← searchList_filter hblank,
    filter_visibleCode]

/-- The brace that closes one of the visible code. -/
theorem matchingBrace?_eq (h : x ∈ s.visibleCode) (hx : x.char = '{') :
    s.matchingBrace? x.offset =
      searchList closingBrace 0 (s.visibleCode.filter (x.offset ≤ ·.offset)) := by
  obtain ⟨pre, post, hchars, hoffset, houtside, -⟩ := exists_of_mem_visibleCode h
  have hspot : (s.spotAt x.offset).offset = x.offset ∧ (s.spotAt x.offset).rest.head? = some '{' := by
    rw [SourceText.spotAt, offset_spotAt, rest_spotAt, hchars, ← hoffset, takeBytes_byteLength,
      dropBytes_byteLength, hx]
    exact ⟨rfl, rfl⟩
  unfold SourceText.matchingBrace?
  rw [if_pos hspot]
  exact searchFrom_eq (fun depth _ => closingBrace_of_isBlank depth) houtside 0

/-- From a place outside literals, the block that follows is found in the visible code. -/
theorem bodyFrom_eq {start : Nat} (h : s.OutsideLiteral start) (parens : Nat) :
    s.bodyFrom start parens = bodyIn s.visibleCode start parens := by
  have hopen : s.findBlockOpen? start parens =
      searchList blockOpen parens (s.visibleCode.filter (start ≤ ·.offset)) :=
    searchFrom_eq (fun depth _ => blockOpen_of_isBlank depth) h parens
  unfold SourceText.bodyFrom bodyIn
  rw [hopen]
  cases hfound : searchList blockOpen parens (s.visibleCode.filter (start ≤ ·.offset)) with
  | none => rfl
  | some o =>
    obtain ⟨x, hmem, hchar, rfl⟩ := searchList_blockOpen hfound
    cases hclose : searchList closingBrace 0 (s.visibleCode.filter (x.offset ≤ ·.offset)) <;>
      simp only [matchingBrace?_eq (List.mem_of_mem_filter hmem) hchar, hclose]

/-- A block starts at a brace of the code, and ends at one if it closes. -/
theorem bodyIn_cases (code : List CodeChar) (start parens : Nat) :
    bodyIn code start parens = .missing ∨
      (∃ x ∈ code, bodyIn code start parens = .unclosed x.offset) ∨
      ∃ x ∈ code, ∃ y ∈ code, x.char = '{' ∧ y.char = '}' ∧ x.offset ≤ y.offset ∧
        bodyIn code start parens = .closed x.offset y.offset := by
  unfold bodyIn
  split
  · exact Or.inl rfl
  · next o hopen =>
    obtain ⟨x, hx, hxchar, rfl⟩ := searchList_blockOpen hopen
    split
    · exact Or.inr (Or.inl ⟨x, List.mem_of_mem_filter hx, rfl⟩)
    · next c hclose =>
      obtain ⟨y, hy, hychar, rfl⟩ := searchList_closingBrace hclose
      obtain ⟨hy, hle⟩ := List.mem_filter.mp hy
      exact Or.inr (Or.inr ⟨x, List.mem_of_mem_filter hx, y, hy, hxchar, hychar,
        of_decide_eq_true hle, rfl⟩)

end Reading

section Depth

theorem offset_le_of_mem_codeIn {quotes : List Char} {reading : CodeReading} {comments : List Span}
    {offset : Nat} {cs : List Char} {x : CodeChar}
    (h : x ∈ codeIn quotes reading comments offset cs) : offset ≤ x.offset := by
  obtain ⟨pre, post, -, hoffset⟩ := mem_codeIn h
  omega

/-- The tracker counts the braces of the code before its target. -/
theorem depth_advance (target : Nat) (quotes : List Char) (depth : Nat) (reading : CodeReading)
    (comments : List Span) (offset : Nat) (cs : List Char) :
    (DepthTracker.advance target quotes depth reading comments offset cs).depth =
      ((codeIn quotes reading comments offset cs).filter (·.offset < target)).foldl
        (fun depth x => braceDepth depth x.char) depth := by
  induction cs generalizing depth reading comments offset with
  | nil => rfl
  | cons c cs ih =>
    by_cases hlt : offset < target
    · rw [DepthTracker.advance, if_pos hlt, codeIn]
      dsimp only
      rw [ih]
      split
      · rw [List.filter_cons_of_pos (by simpa using hlt)]
        rfl
      · rfl
    · have hnone : (codeIn quotes reading comments offset (c :: cs)).filter
          (·.offset < target) = [] := by
        rw [List.filter_eq_nil_iff]
        intro x hx
        have := offset_le_of_mem_codeIn hx
        simp only [decide_eq_true_eq]
        omega
      rw [DepthTracker.advance, if_neg hlt, hnone]
      rfl

/-- A tracker that moves on in two steps gets where one step leads. -/
theorem advanceTo_advanceTo {target target' : Nat} (h : target ≤ target') (t : DepthTracker) :
    (t.advanceTo target).advanceTo target' = t.advanceTo target' := by
  obtain ⟨depth, quotes, reading, comments, offset, rest⟩ := t
  unfold DepthTracker.advanceTo
  dsimp only
  induction rest generalizing depth reading comments offset with
  | nil => rfl
  | cons c cs ih =>
    by_cases hlt : offset < target
    · have hlt' : offset < target' := Nat.lt_of_lt_of_le hlt h
      rw [DepthTracker.advance, if_pos hlt]
      dsimp only
      rw [ih]
      conv_rhs => rw [DepthTracker.advance, if_pos hlt']
    · rw [DepthTracker.advance, if_neg hlt]

/-- Of values in ascending order those are kept that lie outside all braces. -/
theorem outermost_eq_filter {α : Type} (offset : α → Nat) (t : DepthTracker) {xs : List α}
    (h : xs.Pairwise fun a b => offset a ≤ offset b) :
    t.outermost offset xs = xs.filter fun a => (t.advanceTo (offset a)).depth = 0 := by
  induction xs generalizing t with
  | nil => rfl
  | cons a xs ih =>
    obtain ⟨hfirst, hrest⟩ := List.pairwise_cons.mp h
    have hlater : xs.filter (fun b => ((t.advanceTo (offset a)).advanceTo (offset b)).depth = 0) =
        xs.filter fun b => (t.advanceTo (offset b)).depth = 0 :=
      List.filter_congr fun b hb => by rw [advanceTo_advanceTo (hfirst b hb)]
    rw [DepthTracker.outermost, ih _ hrest, hlater, List.filter_cons]
    simp only [decide_eq_true_eq]

theorem foldl_braceDepth_filter (code : List CodeChar) (depth : Nat) :
    (code.filter fun x => !isBlank x.char).foldl (fun depth x => braceDepth depth x.char) depth =
      code.foldl (fun depth x => braceDepth depth x.char) depth := by
  induction code generalizing depth with
  | nil => rfl
  | cons x code ih =>
    by_cases hx : isBlank x.char = true
    · rw [List.filter_cons_of_neg (by simp [hx]), ih, List.foldl_cons,
        braceDepth_of_isBlank depth hx]
    · rw [List.filter_cons_of_pos (by simp [hx]), List.foldl_cons, List.foldl_cons, ih]

/-- From a place outside literals, the depth is that of the visible code. -/
theorem depth_advanceTo {s : SourceText} {start : Nat} (h : s.OutsideLiteral start) (offset : Nat) :
    ((s.depthTracker start).advanceTo offset).depth = depthIn s.visibleCode start offset := by
  have hcode : (s.codeFrom start).filter (·.offset < offset) =
      s.code.filter fun x => start ≤ x.offset && x.offset < offset := by
    rw [SourceText.codeFrom_eq_filter h, List.filter_filter]
    exact List.filter_congr fun x _ => Bool.and_comm _ _
  rw [depthIn, ← filter_visibleCode, foldl_braceDepth_filter, ← hcode]
  exact depth_advance offset ..

end Depth

section Moved

variable {f : Nat → Nat} {code : List CodeChar}

theorem filter_map_offset {p q : Nat → Bool} (h : ∀ x ∈ code, p (f x.offset) = q x.offset) :
    (code.map (CodeChar.map f)).filter (p ·.offset) =
      (code.filter (q ·.offset)).map (CodeChar.map f) := by
  rw [List.filter_map]
  exact congrArg _ (List.filter_congr h)

theorem bodyIn_map {start : Nat} (parens : Nat)
    (hstart : ∀ x ∈ code, f start ≤ f x.offset ↔ start ≤ x.offset)
    (hcode : ∀ x ∈ code, ∀ y ∈ code, f x.offset ≤ f y.offset ↔ x.offset ≤ y.offset) :
    bodyIn (code.map (CodeChar.map f)) (f start) parens = (bodyIn code start parens).map f := by
  have hfilter : ∀ o, (∀ x ∈ code, f o ≤ f x.offset ↔ o ≤ x.offset) →
      (code.map (CodeChar.map f)).filter (f o ≤ ·.offset) =
        (code.filter (o ≤ ·.offset)).map (CodeChar.map f) := fun o ho =>
    filter_map_offset (p := fun n => decide (f o ≤ n)) (q := fun n => decide (o ≤ n))
      fun x hx => decide_eq_decide.mpr (ho x hx)
  unfold bodyIn
  rw [hfilter start hstart, searchList_map (blockOpen_map f)]
  cases hopen : searchList blockOpen parens (code.filter (start ≤ ·.offset)) with
  | none => rfl
  | some o =>
    obtain ⟨x, hx, -, rfl⟩ := searchList_blockOpen hopen
    simp only [Option.map_some]
    rw [hfilter x.offset (hcode x (List.mem_of_mem_filter hx)), searchList_map (closingBrace_map f)]
    cases searchList closingBrace 0 (code.filter (x.offset ≤ ·.offset)) <;> rfl

theorem depthIn_map {start start' offset : Nat}
    (hstart : ∀ x ∈ code, start' ≤ f x.offset ↔ start ≤ x.offset)
    (hoffset : ∀ x ∈ code, f x.offset < f offset ↔ x.offset < offset) :
    depthIn (code.map (CodeChar.map f)) start' (f offset) = depthIn code start offset := by
  have hfilter : (code.map (CodeChar.map f)).filter
        (fun x => decide (start' ≤ x.offset) && decide (x.offset < f offset)) =
      (code.filter fun x => decide (start ≤ x.offset) && decide (x.offset < offset)).map
        (CodeChar.map f) :=
    filter_map_offset (p := fun n => decide (start' ≤ n) && decide (n < f offset))
      (q := fun n => decide (start ≤ n) && decide (n < offset)) fun x hx => by
        simp only [hstart x hx, hoffset x hx]
  unfold depthIn
  rw [hfilter, List.foldl_map]
  rfl

namespace Change

variable {rules : LexicalRules} {e : Change rules} {start : Nat}

/-- The block that follows a place moves on with it. -/
theorem bodyFrom_move (hbeside : e.Beside start) (h : e.before.OutsideLiteral start)
    (parens : Nat) :
    e.after.bodyFrom (e.move start) parens = (e.before.bodyFrom start parens).map e.move := by
  rw [bodyFrom_eq ((e.outsideLiteral_move hbeside).mpr h), bodyFrom_eq h, visibleCode_after]
  apply bodyIn_map
  · exact fun x hx => move_le_move_iff hbeside (e.beside_of_mem_visibleCode hx).1
  · exact fun x hx y hy => move_le_move_iff (e.beside_of_mem_visibleCode hx).1
      (e.beside_of_mem_visibleCode hy).1

/-- The depth of nesting at a place stays what it was. -/
theorem depth_move {start' offset : Nat} (hstarts : e.Starts start start')
    (h : e.before.OutsideLiteral start) (h' : e.after.OutsideLiteral start')
    (hoffset : e.Beside offset) :
    ((e.after.depthTracker start').advanceTo (e.move offset)).depth =
      ((e.before.depthTracker start).advanceTo offset).depth := by
  rw [depth_advanceTo h', depth_advanceTo h, visibleCode_after]
  apply depthIn_map
  · exact fun x hx => hstarts.le_move_iff (e.beside_of_mem_visibleCode hx).1
  · exact fun x hx => move_lt_move_iff (e.beside_of_mem_visibleCode hx).1 hoffset

end Change

end Moved

end Concordance
