import Concordance.Proofs.Definition.Bodies
import Concordance.Proofs.Source.CodeRun

/-!
The brace that closes another one.

The search for it counts braces, and what it has counted is the balance of the code it has read
(`searchList_closingBrace_append`). While it goes on with a brace open, one stays open
(`balance_pos_of_searchList`), so it ends at the first closing brace at which all braces since its
start balance, and nowhere else. From a brace between the two, the search reads a part of the same
code, in which fewer braces are open, so it ends earlier. Main statement: `matchingBrace?_balances`.
-/

namespace Concordance

open Text

/-- The opening braces less the closing ones. -/
def braceBalance (code : List CodeChar) : Int :=
  (code.map CodeChar.char).count '{' - (code.map CodeChar.char).count '}'

/-- The character behind `front` is a closing brace at which the braces balance, `depth` being open in
front of all. -/
def Closes (depth : Int) (front : List CodeChar) (x : CodeChar) : Prop :=
  x.char = '}' ∧ depth + braceBalance (front ++ [x]) = 0

instance (depth : Int) (front : List CodeChar) (x : CodeChar) : Decidable (Closes depth front x) :=
  inferInstanceAs (Decidable (_ ∧ _))

section Balance

variable {depth : Int} {front back code : List CodeChar} {x y : CodeChar}

@[simp] theorem braceBalance_nil : braceBalance [] = 0 := rfl

@[simp] theorem braceBalance_append (front back : List CodeChar) :
    braceBalance (front ++ back) = braceBalance front + braceBalance back := by
  simp only [braceBalance, List.map_append, List.count_append]
  omega

theorem braceBalance_cons (x : CodeChar) (code : List CodeChar) :
    braceBalance (x :: code) = braceBalance [x] + braceBalance code :=
  braceBalance_append [x] code

theorem braceBalance_singleton (x : CodeChar) :
    braceBalance [x] = if x.char = '{' then 1 else if x.char = '}' then -1 else 0 := by
  by_cases hopen : x.char = '{'
  · simp [braceBalance, hopen]
  · by_cases hclose : x.char = '}' <;> simp [braceBalance, hopen, hclose]

theorem braceBalance_opening (offset : Nat) : braceBalance [⟨offset, '{'⟩] = 1 := rfl

theorem braceBalance_closing (offset : Nat) : braceBalance [⟨offset, '}'⟩] = -1 := rfl

theorem closes_nil_iff : Closes depth [] x ↔ x.char = '}' ∧ depth - 1 = 0 := by
  refine and_congr_right fun hchar => ?_
  rw [List.nil_append, braceBalance_singleton, hchar]
  exact Iff.rfl

theorem closes_append_iff :
    Closes depth (front ++ back) x ↔ Closes (depth + braceBalance front) back x := by
  simp only [Closes, List.append_assoc, braceBalance_append, Int.add_assoc]

/-- The search ends at a closing brace at which the braces balance, and counts on otherwise. -/
theorem closingBrace_eq (depth : Int) (x : CodeChar) :
    closingBrace depth x =
      if Closes depth [] x then .stop (some x.offset) else .go (depth + braceBalance [x]) := by
  simp only [closes_nil_iff, braceBalance_singleton, closingBrace]
  by_cases hopen : x.char = '{'
  · simp [hopen]
  by_cases hclose : x.char = '}'
  · simp [hclose, Int.sub_eq_add_neg]
  · simp [hopen, hclose]

theorem searchList_closingBrace_cons (depth : Int) (x : CodeChar) (code : List CodeChar) :
    searchList closingBrace depth (x :: code) =
      if Closes depth [] x then some x.offset
      else searchList closingBrace (depth + braceBalance [x]) code := by
  rw [searchList, closingBrace_eq]
  split
  · next h =>
    split at h
    · cases h
    · next hnot => cases h; rw [if_neg hnot]
  · next h =>
    split at h
    · next hcloses => cases h; rw [if_pos hcloses]
    · cases h

/-- A search that does not end in the first part goes on with the balance of that part. -/
theorem searchList_closingBrace_append (depth : Int) (front back : List CodeChar) :
    searchList closingBrace depth (front ++ back) =
      (searchList closingBrace depth front).or
        (searchList closingBrace (depth + braceBalance front) back) := by
  induction front generalizing depth with
  | nil => simp [searchList]
  | cons x front ih =>
    rw [List.cons_append, searchList_closingBrace_cons, searchList_closingBrace_cons, ih]
    split
    · rfl
    · rw [braceBalance_cons x front, Int.add_assoc]

/-- While a search that starts with a brace open goes on, a brace stays open. -/
theorem balance_pos_of_searchList (hpos : 0 < depth)
    (h : searchList closingBrace depth code = none) : 0 < depth + braceBalance code := by
  induction code generalizing depth with
  | nil => simpa using hpos
  | cons x code ih =>
    rw [searchList_closingBrace_cons] at h
    split at h
    · cases h
    · next hnot =>
      rw [closes_nil_iff, not_and] at hnot
      rw [braceBalance_cons, ← Int.add_assoc]
      refine ih ?_ h
      rw [braceBalance_singleton]
      split
      · omega
      · split
        · next hclose =>
          have := hnot hclose
          omega
        · omega

/-- The search finds nothing exactly if the braces balance at no closing brace. -/
theorem searchList_closingBrace_eq_none_iff :
    searchList closingBrace depth code = none ↔
      ∀ front x back, code = front ++ x :: back → ¬ Closes depth front x := by
  constructor
  · rintro h front x back rfl hcloses
    rw [searchList_closingBrace_append, Option.or_eq_none_iff, searchList_closingBrace_cons,
      if_pos] at h
    · cases h.2
    · rwa [← closes_append_iff, List.append_nil]
  · intro h
    induction code generalizing depth with
    | nil => rfl
    | cons x code ih =>
      rw [searchList_closingBrace_cons, if_neg (h [] x code rfl)]
      refine ih fun front y back hcode hcloses => ?_
      refine h (x :: front) y back (by rw [hcode]; rfl) ?_
      rw [← List.singleton_append]
      exact closes_append_iff.mpr hcloses

/-- The search finds the first closing brace at which the braces balance. -/
theorem searchList_closingBrace_eq_some_iff {offset : Nat} :
    searchList closingBrace depth code = some offset ↔
      ∃ front x back, code = front ++ x :: back ∧ x.offset = offset ∧ Closes depth front x ∧
        ∀ pre y post, front = pre ++ y :: post → ¬ Closes depth pre y := by
  simp only [← searchList_closingBrace_eq_none_iff]
  constructor
  · intro h
    induction code generalizing depth with
    | nil => cases h
    | cons x code ih =>
      rw [searchList_closingBrace_cons] at h
      split at h
      · next hcloses => exact ⟨[], x, code, rfl, Option.some.inj h, hcloses, rfl⟩
      · next hnot =>
        obtain ⟨front, y, back, rfl, hoffset, hcloses, hnone⟩ := ih h
        refine ⟨x :: front, y, back, rfl, hoffset, ?_, ?_⟩
        · rw [← List.singleton_append]
          exact closes_append_iff.mpr hcloses
        · rw [searchList_closingBrace_cons, if_neg hnot, hnone]
  · rintro ⟨front, x, back, rfl, rfl, hcloses, hnone⟩
    rw [searchList_closingBrace_append, hnone, searchList_closingBrace_cons, if_pos]
    · rfl
    · rwa [← closes_append_iff, List.append_nil]

end Balance

namespace SourceText

variable {s : SourceText} {opening : Nat}

/-- A search for the closing brace reads the code from the opening one on. -/
theorem matchingBrace?_of_charAt? (h : s.charAt? opening = some '{') :
    s.matchingBrace? opening = searchList closingBrace 0 (s.codeFrom opening) := by
  obtain ⟨front, back, hchars, rfl⟩ := charAt?_eq_some_iff.mp h
  have hspot : (s.spotAt (byteLength front)).offset = byteLength front ∧
      (s.spotAt (byteLength front)).rest.head? = some '{' := by
    rw [spotAt, offset_spotAt, rest_spotAt, hchars, takeBytes_byteLength, dropBytes_byteLength]
    exact ⟨rfl, rfl⟩
  unfold matchingBrace?
  rw [if_pos hspot]
  exact searchFrom_spotAt ..

theorem charAt?_of_matchingBrace? {close : Nat} (h : s.matchingBrace? opening = some close) :
    s.charAt? opening = some '{' := by
  unfold matchingBrace? at h
  dsimp only at h
  split at h
  · next hspot => rw [charAt?, if_pos hspot.1, hspot.2]
  · cases h

/-- In front of the closing brace one brace is open. -/
theorem exists_front_of_matchingBrace? {close : Nat} (h : s.matchingBrace? opening = some close) :
    ∃ front back, s.codeFrom opening = front ++ ⟨close, '}'⟩ :: back ∧ braceBalance front = 1 := by
  rw [matchingBrace?_of_charAt? (charAt?_of_matchingBrace? h),
    searchList_closingBrace_eq_some_iff] at h
  obtain ⟨front, ⟨offset, char⟩, back, hcode, rfl, ⟨rfl, hzero⟩, -⟩ := h
  rw [braceBalance_append, braceBalance_closing] at hzero
  exact ⟨front, back, hcode, by omega⟩

theorem onBoundary_of_charAt? {offset : Nat} {c : Char} (h : s.charAt? offset = some c) :
    onBoundary offset s.chars = true := by
  obtain ⟨front, back, hchars, hoffset⟩ := charAt?_eq_some_iff.mp h
  exact onBoundary_iff.mpr ⟨front, c :: back, hchars, hoffset⟩

/-- A character outside comments that opens no literal is the first of the code from it on. -/
theorem codeFrom_of_charAt? {offset : Nat} {c : Char} (h : s.charAt? offset = some c)
    (hfree : s.inComment offset = false) (hquote : c ∉ s.rules.quotes) :
    s.codeFrom offset = ⟨offset, c⟩ :: s.codeFrom (offset + c.utf8Size) := by
  obtain ⟨front, back, hchars, hoffset⟩ := charAt?_eq_some_iff.mp h
  have hbehind : onBoundary (offset + c.utf8Size) s.chars = true := by
    rw [hchars, ← hoffset]
    exact onBoundary_behind front c back
  exact (meets_codeFrom (onBoundary_of_charAt? h)).unique
    (.code hfree h hquote (meets_codeFrom hbehind))

/-- Before a search for the closing brace has its answer, it has found none. -/
theorem searchList_eq_none_of_before (h : s.charAt? opening = some '{') {front back : List CodeChar}
    (hcode : s.codeFrom opening = front ++ back)
    (hbefore : ∀ c ∈ s.matchingBrace? opening, ∀ x ∈ front, x.offset < c) :
    searchList closingBrace 0 front = none := by
  cases hfront : searchList closingBrace 0 front with
  | none => rfl
  | some c =>
    have hfound : s.matchingBrace? opening = some c := by
      rw [matchingBrace?_of_charAt? h, hcode, searchList_closingBrace_append, hfront]
      rfl
    obtain ⟨x, hx, -, rfl⟩ := searchList_closingBrace hfront
    exact absurd (hbefore x.offset hfound x hx) (Nat.lt_irrefl _)

/-- Behind an opening brace that is met, a brace is open until the search ends. -/
theorem balance_pos_of_before (h : s.charAt? opening = some '{')
    (hfree : s.inComment opening = false) (hquote : '{' ∉ s.rules.quotes)
    {front back : List CodeChar} (hcode : s.codeFrom opening = front ++ back)
    (hbefore : ∀ c ∈ s.matchingBrace? opening, ∀ x ∈ front, x.offset < c) (hne : front ≠ []) :
    0 < braceBalance front := by
  have hnone := searchList_eq_none_of_before h hcode hbefore
  cases front with
  | nil => exact absurd rfl hne
  | cons x front =>
    rw [codeFrom_of_charAt? h hfree hquote] at hcode
    obtain rfl := (List.cons.inj hcode).1
    rw [searchList_closingBrace_cons, if_neg (by simp [Closes])] at hnone
    rw [braceBalance_cons]
    exact balance_pos_of_searchList (by rw [braceBalance_opening]; decide) hnone

/-- In code in the order of the text, what stands before a character is listed in front of it. -/
theorem mem_of_offset_lt {front back : List CodeChar} {x y : CodeChar}
    (h : (front ++ x :: back).Pairwise fun x y => x.offset < y.offset) (hy : y ∈ front ++ x :: back)
    (hlt : y.offset < x.offset) : y ∈ front := by
  rcases List.mem_append.mp hy with hy | hy
  · exact hy
  · have hle : x.offset ≤ y.offset := by
      rcases List.mem_cons.mp hy with rfl | hy
      · exact Nat.le_refl _
      · exact Nat.le_of_lt ((List.pairwise_cons.mp (List.pairwise_append.mp h).2.1).1 y hy)
    exact absurd hlt (Nat.not_lt.mpr hle)

/-- From a brace between an opening one and the one that closes it, the search ends before that. -/
theorem exists_matchingBrace?_between (hfree : s.inComment opening = false) {close inner : Nat}
    (h : s.matchingBrace? opening = some close) (hinner : ⟨inner, '{'⟩ ∈ s.codeFrom opening)
    (hlt : opening < inner) (hltc : inner < close) :
    ∃ c, s.matchingBrace? inner = some c ∧ inner < c ∧ c < close := by
  have hopen := charAt?_of_matchingBrace? h
  have hmeets := meets_codeFrom (onBoundary_of_charAt? hopen)
  obtain ⟨-, hchar, -, hquote⟩ := hmeets.of_mem hinner
  obtain ⟨front, back, hcode, hone⟩ := exists_front_of_matchingBrace? h
  have hsorted := hmeets.pairwise
  rw [hcode] at hsorted hinner
  obtain ⟨-, -, hapart⟩ := List.pairwise_append.mp hsorted
  obtain ⟨outer, between, rfl⟩ := List.append_of_mem (mem_of_offset_lt hsorted hinner hltc)
  have houter : 0 < braceBalance outer := by
    refine balance_pos_of_before hopen hfree hquote (hcode.trans (List.append_assoc ..)) ?_ ?_
    · intro c hc x hx
      obtain rfl := Option.some.inj (h.symm.trans hc)
      exact hapart x (List.mem_append_left _ hx) _ List.mem_cons_self
    · rintro rfl
      rw [codeFrom_of_charAt? hopen hfree hquote] at hcode
      have hsame := congrArg CodeChar.offset (List.cons.inj hcode).1
      exact absurd hlt (by rw [show opening = inner from hsame]; exact Nat.lt_irrefl _)
  -- the search from it reads what stands between the two
  rw [List.append_assoc, List.cons_append] at hcode
  rw [hcode] at hmeets
  have hrest : s.matchingBrace? inner = (searchList closingBrace 1 between).or
      (searchList closingBrace (1 + braceBalance between) (⟨close, '}'⟩ :: back)) := by
    rw [matchingBrace?_of_charAt? hchar, codeFrom_of_append (x := ⟨inner, '{'⟩) hmeets,
      searchList_closingBrace_cons, if_neg (by simp [Closes]), braceBalance_opening]
    exact searchList_closingBrace_append 1 between _
  cases hsearch : searchList closingBrace 1 between with
  | none =>
    have hpos := balance_pos_of_searchList (by decide) hsearch
    rw [braceBalance_append, braceBalance_cons, braceBalance_opening] at hone
    omega
  | some c =>
    obtain ⟨x, hx, -, rfl⟩ := searchList_closingBrace hsearch
    refine ⟨x.offset, by rw [hrest, hsearch]; rfl, ?_, ?_⟩
    · have hordered := (List.pairwise_append.mp hmeets.pairwise).2.1
      exact (List.pairwise_cons.mp hordered).1 x (List.mem_append_left _ hx)
    · exact hapart x (List.mem_append_right _ (List.mem_cons_of_mem _ hx)) _ List.mem_cons_self

theorem brace_notMem_quotes (language : Language) : '{' ∉ language.lexicalRules.quotes := by
  cases language <;> decide

/-- The search for the brace that closes the one at `opening` reads the code that a run from there
meets. Its count is the balance of what it has read and never falls below zero, as long as braces open
no literals, which they do in no language (`brace_notMem_quotes`). Its answer is the first closing brace
at which the braces balance, and there is none exactly if there is no such brace. Of a brace that is met
in between, the search has an answer too, in between as well. -/
theorem matchingBrace?_balances (s : SourceText) {opening : Nat}
    (hchar : s.charAt? opening = some '{') (hfree : s.inComment opening = false) :
    s.Meets opening (s.codeFrom opening) ∧
    ('{' ∉ s.rules.quotes → ∀ front back, s.codeFrom opening = front ++ back →
      (∀ c ∈ s.matchingBrace? opening, ∀ x ∈ front, x.offset < c) →
      s.matchingBrace? opening = searchList closingBrace (braceBalance front) back ∧
        0 ≤ braceBalance front) ∧
    (∀ c, s.matchingBrace? opening = some c ↔
      ∃ front x back, s.codeFrom opening = front ++ x :: back ∧ x.offset = c ∧ Closes 0 front x ∧
        ∀ pre y post, front = pre ++ y :: post → ¬ Closes 0 pre y) ∧
    (s.matchingBrace? opening = none ↔
      ∀ front x back, s.codeFrom opening = front ++ x :: back → ¬ Closes 0 front x) ∧
    ∀ c, s.matchingBrace? opening = some c → ∀ inner, ⟨inner, '{'⟩ ∈ s.codeFrom opening →
      opening < inner → inner < c →
      ∃ c', s.matchingBrace? inner = some c' ∧ inner < c' ∧ c' < c := by
  have hsearch := matchingBrace?_of_charAt? hchar
  refine ⟨meets_codeFrom (onBoundary_of_charAt? hchar), ?_, ?_, ?_, ?_⟩
  · intro hquote front back hcode hbefore
    have hnone := searchList_eq_none_of_before hchar hcode hbefore
    constructor
    · rw [hsearch, hcode, searchList_closingBrace_append, hnone, Int.zero_add]
      rfl
    · by_cases hne : front = []
      · exact Int.le_of_eq (by rw [hne, braceBalance_nil])
      · exact Int.le_of_lt (balance_pos_of_before hchar hfree hquote hcode hbefore hne)
  · intro c
    rw [hsearch]
    exact searchList_closingBrace_eq_some_iff
  · rw [hsearch]
    exact searchList_closingBrace_eq_none_iff
  · intro c hc inner hinner hlt hltc
    exact exists_matchingBrace?_between hfree hc hinner hlt hltc

/-- Closing braces in a literal and in a comment stand before the ones that count. -/
def braced : SourceText :=
  .ofChars Language.javascript.lexicalRules
    "a \x7b '\x7d' /* \x7d */ \x7b \x7d \x7d \x7d".toList

theorem matchingBrace?_balances_braced :
    braced.charAt? 2 = some '{' ∧ braced.inComment 2 = false ∧
      '{' ∉ braced.rules.quotes ∧ braced.matchingBrace? 2 = some 20 ∧
      ∃ c', braced.matchingBrace? 16 = some c' ∧ 16 < c' ∧ c' < 20 := by
  have hchar : braced.charAt? 2 = some '{' := by decide +kernel
  have hfree : braced.inComment 2 = false := by decide +kernel
  have hfound : braced.matchingBrace? 2 = some 20 := by decide +kernel
  have hmet : ⟨16, '{'⟩ ∈ braced.codeFrom 2 := by decide +kernel
  obtain ⟨-, -, -, -, hbetween⟩ := matchingBrace?_balances braced hchar hfree
  exact ⟨hchar, hfree, brace_notMem_quotes .javascript, hfound,
    hbetween 20 hfound 16 hmet (by decide) (by decide)⟩

end SourceText

end Concordance
