import Concordance.Proofs.Reference.WholeNames
import Concordance.Proofs.Selector.Parts
import Concordance.Reference.JavaScript

/-!
The class or id that a selector is known by.

The scan for it passes over what a backslash hides and over the names it has read. A name holds nothing
that the scan heeds, so only the backslash matters, and how a place is enclosed can be told from what
stands before it (`lastKey_cons`). The key is the last one that starts at a place outside brackets
(`selectorKey?_eq_some_iff`). Main statement: `selectorKey?_recognised`, by which a selector is found where
it is looked up as it is written.
-/

namespace Concordance

open Text

/-- How a place in a selector is enclosed: whether a backslash hides the character there, and how many
brackets are open. -/
structure Enclosure where
  hidden : Bool
  depth : Nat
deriving Repr, DecidableEq

namespace Enclosure

/-- Neither hidden nor within brackets. -/
def outside : Enclosure :=
  ⟨false, 0⟩

/-- How the place behind a character is enclosed. -/
def step (e : Enclosure) (c : Char) : Enclosure :=
  if e.hidden then ⟨false, e.depth⟩
  else if c = '\\' then ⟨true, e.depth⟩
  else ⟨false, bracketStep e.depth c⟩

end Enclosure

/-- How the place behind the text is enclosed. -/
def enclosure (text : List Char) : Enclosure :=
  text.foldl Enclosure.step .outside

section Names

/-- A name has characters, all of which may stand in one, and starts with no digit. -/
structure SelectorKey.Named (key : SelectorKey) : Prop where
  ne_nil : key.name ≠ []
  chars : ∀ c ∈ key.name, isNameChar c = true
  first : ∀ c ∈ key.name.head?, c.isDigit = false

variable {key : SelectorKey}

theorem SelectorKey.Named.isToken (h : key.Named) : IsToken key.token := by
  cases key with
  | className name => exact ⟨List.cons_ne_nil _ _, h.chars, by simp [token, tokenMarks]⟩
  | id name => exact ⟨List.cons_ne_nil _ _, h.chars, by simp [token, tokenMarks]⟩

theorem SelectorKey.token_eq_cons (key : SelectorKey) :
    ∃ mark, (mark = '.' ∨ mark = '#') ∧ key.token = mark :: key.name := by
  cases key with
  | className name => exact ⟨'.', Or.inl rfl, rfl⟩
  | id name => exact ⟨'#', Or.inr rfl, rfl⟩

/-- The token of a key is found where it stands with no more of a name behind it. -/
theorem SelectorKey.Named.mem_tokenOffsets_iff (h : key.Named) {pre post : List Char} :
    byteLength pre ∈ tokenOffsets key.token (pre ++ key.token ++ post) ↔
      ∀ c ∈ post.head?, isNameChar c = false := by
  obtain ⟨mark, hmark, htoken⟩ := key.token_eq_cons
  rw [Concordance.mem_tokenOffsets_iff h.isToken]
  constructor
  · rintro ⟨pre', post', hsplit, hlength, hpost, -⟩
    rw [List.append_assoc, List.append_assoc] at hsplit
    obtain ⟨-, hbehind⟩ := append_inj_byteLength hsplit hlength.symm
    rwa [List.append_cancel_left hbehind]
  · intro hpost
    refine ⟨pre, post, rfl, rfl, hpost, ?_⟩
    rcases hmark with rfl | rfl <;> simp [htoken]

/-- What the scan for a key heeds is no part of a name. -/
theorem isNameChar_of_mem_marks {c : Char} (h : c ∈ ['\\', '(', '[', ')', ']', '.', '#']) :
    isNameChar c = false := by
  revert c
  decide +kernel

/-- A mark and the name behind it make the key that is written as they are. -/
theorem SelectorKey.make?_eq_some_iff {mark : Char} (hmark : mark = '.' ∨ mark = '#')
    {name : List Char} : make? mark name = some key ↔
      mark :: name = key.token ∧ key.name ≠ [] ∧ ∀ c ∈ key.name.head?, c.isDigit = false := by
  constructor
  · intro h
    cases name with
    | nil => cases h
    | cons c cs =>
      rw [make?] at h
      split at h
      · cases h
      · next hdigit =>
        obtain rfl := Option.some.inj h
        rcases hmark with rfl | rfl <;> simpa [token, SelectorKey.name] using hdigit
  · rintro ⟨htoken, hne, hfirst⟩
    cases key with
    | className cs =>
      obtain ⟨rfl, rfl⟩ := List.cons.inj htoken
      obtain ⟨c, cs, rfl⟩ := List.exists_cons_of_ne_nil hne
      simp [make?, hfirst c rfl]
    | id cs =>
      obtain ⟨rfl, rfl⟩ := List.cons.inj htoken
      obtain ⟨c, cs, rfl⟩ := List.exists_cons_of_ne_nil hne
      simp [make?, hfirst c rfl]

theorem SelectorKey.make?_eq_none_iff {mark : Char} {name : List Char} :
    make? mark name = none ↔ ∀ c ∈ name.head?, c.isDigit = true := by
  cases name with
  | nil => simp [make?]
  | cons c cs => simp [make?]

end Names

section Keys

variable {e : Enclosure} {text : List Char} {key : SelectorKey}

/-- The key that starts with the text, if the place before it is enclosed in this way. -/
def keyAt? (e : Enclosure) : List Char → Option SelectorKey
  | [] => none
  | c :: cs =>
    if (c = '.' ∨ c = '#') ∧ e = .outside then SelectorKey.make? c (cs.takeWhile isNameChar) else none

/-- A key starts at a place outside brackets that nothing hides, where it stands with no more of a name
behind it. -/
theorem keyAt?_eq_some_iff :
    keyAt? e text = some key ↔ e = .outside ∧ key.Named ∧
      ∃ post, text = key.token ++ post ∧ ∀ c ∈ post.head?, isNameChar c = false := by
  constructor
  · intro h
    cases text with
    | nil => cases h
    | cons mark cs =>
      rw [keyAt?] at h
      split at h
      · next hplace =>
        obtain ⟨hmark, hout⟩ := hplace
        obtain ⟨htoken, hne, hfirst⟩ := (SelectorKey.make?_eq_some_iff hmark).mp h
        have hname : cs.takeWhile isNameChar = key.name := by
          obtain ⟨mark', -, htoken'⟩ := key.token_eq_cons
          exact (List.cons.inj (htoken.trans htoken')).2
        have hchars : ∀ c ∈ key.name, isNameChar c = true := by
          rw [← hname]
          exact fun c hc => List.mem_takeWhile_imp hc
        refine ⟨hout, ⟨hne, hchars, hfirst⟩, cs.dropWhile isNameChar, ?_, fun c hc => ?_⟩
        · rw [← htoken, List.cons_append, List.takeWhile_append_dropWhile]
        · have hhead := List.head?_dropWhile_not isNameChar cs
          rwa [Option.mem_def.mp hc] at hhead
      · cases h
  · rintro ⟨rfl, hnamed, post, rfl, hpost⟩
    obtain ⟨mark, hmark, htoken⟩ := key.token_eq_cons
    have hstop : post.takeWhile isNameChar = [] := by
      cases post with
      | nil => rfl
      | cons c post => exact List.takeWhile_cons_of_neg (by simp [hpost c rfl])
    have hname : (key.name ++ post).takeWhile isNameChar = key.name := by
      rw [List.takeWhile_append_of_pos hnamed.chars, hstop, List.append_nil]
    rw [htoken, List.cons_append, keyAt?, if_pos ⟨hmark, rfl⟩, hname]
    exact (SelectorKey.make?_eq_some_iff hmark).mpr ⟨htoken.symm, hnamed.ne_nil, hnamed.first⟩

/-- No key starts at a place if no mark stands there, or it is hidden or within brackets, or the name
behind the mark is empty or starts with a digit. -/
theorem keyAt?_eq_none_iff :
    keyAt? e text = none ↔ ∀ mark rest, text = mark :: rest → (mark = '.' ∨ mark = '#') →
      e = .outside → ∀ c ∈ (rest.takeWhile isNameChar).head?, c.isDigit = true := by
  cases text with
  | nil => exact iff_of_true rfl nofun
  | cons mark cs =>
    rw [keyAt?]
    by_cases hplace : (mark = '.' ∨ mark = '#') ∧ e = .outside
    · rw [if_pos hplace, SelectorKey.make?_eq_none_iff]
      constructor
      · intro hdigit mark' rest hsplit _ _
        obtain ⟨rfl, rfl⟩ := List.cons.inj hsplit
        exact hdigit
      · exact fun h => h mark cs rfl hplace.1 hplace.2
    · refine iff_of_true (if_neg hplace) fun mark' rest hsplit hmark hout => ?_
      obtain ⟨rfl, rfl⟩ := List.cons.inj hsplit
      exact absurd ⟨hmark, hout⟩ hplace

/-- No key starts in the text, the place before it being enclosed in this way. -/
def KeyFree (e : Enclosure) (text : List Char) : Prop :=
  ∀ pre post, text = pre ++ post → keyAt? (pre.foldl Enclosure.step e) post = none

/-- The key starts in the text and is the last one to do so. -/
def HasLastKey (e : Enclosure) (text : List Char) (key : SelectorKey) : Prop :=
  ∃ pre c post, text = pre ++ c :: post ∧
    keyAt? (pre.foldl Enclosure.step e) (c :: post) = some key ∧
    KeyFree ((pre.foldl Enclosure.step e).step c) post

theorem keyFree_nil : KeyFree e [] := by
  intro pre post h
  obtain ⟨rfl, rfl⟩ := List.append_eq_nil_iff.mp h.symm
  rfl

theorem keyFree_cons {c : Char} {cs : List Char} :
    KeyFree e (c :: cs) ↔ keyAt? e (c :: cs) = none ∧ KeyFree (e.step c) cs := by
  constructor
  · intro h
    exact ⟨h [] _ rfl, fun pre post hsplit => h (c :: pre) post (congrArg (c :: ·) hsplit)⟩
  · rintro ⟨hhere, hlater⟩ pre post hsplit
    cases pre with
    | nil =>
      obtain rfl := hsplit
      exact hhere
    | cons d pre =>
      obtain ⟨rfl, hcs⟩ := List.cons.inj hsplit
      exact hlater pre post hcs

theorem not_hasLastKey_nil : ¬ HasLastKey e [] key := by
  rintro ⟨pre, c, post, h, -⟩
  simp at h

theorem hasLastKey_cons {c : Char} {cs : List Char} :
    HasLastKey e (c :: cs) key ↔
      HasLastKey (e.step c) cs key ∨ keyAt? e (c :: cs) = some key ∧ KeyFree (e.step c) cs := by
  constructor
  · rintro ⟨pre, d, post, hsplit, hkey, hfree⟩
    cases pre with
    | nil =>
      obtain ⟨rfl, rfl⟩ := List.cons.inj hsplit
      exact Or.inr ⟨hkey, hfree⟩
    | cons b pre =>
      obtain ⟨rfl, hcs⟩ := List.cons.inj hsplit
      exact Or.inl ⟨pre, d, post, hcs, hkey, hfree⟩
  · rintro (⟨pre, d, post, hsplit, hkey, hfree⟩ | ⟨hkey, hfree⟩)
    · exact ⟨c :: pre, d, post, congrArg (c :: ·) hsplit, hkey, hfree⟩
    · exact ⟨[], c, cs, rfl, hkey, hfree⟩

/-- The scan finds nothing in a character of a name. -/
theorem lastKey_nameChar {c : Char} (hc : isNameChar c = true) (depth : Nat)
    (last : Option SelectorKey) (cs : List Char) :
    lastKey 0 depth last (c :: cs) = lastKey 0 depth last cs := by
  have hne : ∀ d ∈ ['\\', '(', '[', ')', ']', '.', '#'], c ≠ d := by
    rintro d hd rfl
    rw [isNameChar_of_mem_marks hd] at hc
    cases hc
  simp only [List.forall_mem_cons] at hne
  simp [lastKey, hne]

/-- To pass over a name is to read it. -/
theorem lastKey_name (depth : Nat) (last : Option SelectorKey) (cs : List Char) :
    lastKey (cs.takeWhile isNameChar).length depth last cs = lastKey 0 depth last cs := by
  induction cs with
  | nil => rfl
  | cons c cs ih =>
    cases hc : isNameChar c with
    | true =>
      rw [List.takeWhile_cons_of_pos hc, lastKey_nameChar hc, ← ih]
      rfl
    | false =>
      rw [List.takeWhile_cons_of_neg (by simp [hc])]
      rfl

/-- The scan reads one character after the other, and the key it finds last counts. -/
theorem lastKey_cons (e : Enclosure) (last : Option SelectorKey) (c : Char) (cs : List Char) :
    lastKey e.hidden.toNat e.depth last (c :: cs) =
      lastKey (e.step c).hidden.toNat (e.step c).depth (keyAt? e (c :: cs) <|> last) cs := by
  obtain ⟨hidden, depth⟩ := e
  cases hidden with
  | true => simp [lastKey, keyAt?, Enclosure.outside, Enclosure.step]
  | false =>
    by_cases hslash : c = '\\'
    · simp [lastKey, hslash, keyAt?, Enclosure.step]
    by_cases hopen : c = '(' ∨ c = '['
    · rcases hopen with rfl | rfl <;> simp [lastKey, keyAt?, Enclosure.step, bracketStep]
    by_cases hclose : c = ')' ∨ c = ']'
    · rcases hclose with rfl | rfl <;> simp [lastKey, keyAt?, Enclosure.step, bracketStep]
    have hstep : Enclosure.step ⟨false, depth⟩ c = ⟨false, depth⟩ := by
      simp [Enclosure.step, bracketStep, hslash, hopen, hclose]
    rw [hstep, Bool.toNat_false, lastKey, if_neg hslash, if_neg hopen, if_neg hclose]
    by_cases hmark : (c = '.' ∨ c = '#') ∧ depth = 0
    · obtain ⟨hmark, rfl⟩ := hmark
      have hkey : keyAt? ⟨false, 0⟩ (c :: cs) = SelectorKey.make? c (cs.takeWhile isNameChar) :=
        if_pos ⟨hmark, rfl⟩
      rw [if_pos ⟨hmark, rfl⟩, hkey]
      -- the scan goes on behind the name, where it would come by reading the name as well
      exact lastKey_name 0 _ cs
    · have hnone : keyAt? ⟨false, depth⟩ (c :: cs) = none :=
        if_neg fun h => hmark ⟨h.1, congrArg Enclosure.depth h.2⟩
      rw [if_neg hmark, hnone]
      rfl

/-- What the scan found before counts if it finds nothing in the text. -/
theorem lastKey_eq_some_iff (e : Enclosure) (last : Option SelectorKey) (text : List Char) :
    lastKey e.hidden.toNat e.depth last text = some key ↔
      HasLastKey e text key ∨ last = some key ∧ KeyFree e text := by
  induction text generalizing e last with
  | nil =>
    have hnil : lastKey e.hidden.toNat e.depth last [] = last := by
      cases e.hidden <;> rfl
    rw [hnil]
    simp [not_hasLastKey_nil, keyFree_nil]
  | cons c cs ih =>
    rw [lastKey_cons, ih, hasLastKey_cons, keyFree_cons, or_assoc]
    cases keyAt? e (c :: cs) <;> simp

theorem keyFree_iff :
    KeyFree e text ↔ ∀ pre mark rest, text = pre ++ mark :: rest → (mark = '.' ∨ mark = '#') →
      pre.foldl Enclosure.step e = .outside →
        ∀ c ∈ (rest.takeWhile isNameChar).head?, c.isDigit = true := by
  simp only [KeyFree, keyAt?_eq_none_iff]
  constructor
  · exact fun h pre mark rest hsplit => h pre _ hsplit mark rest rfl
  · rintro h pre post hsplit mark rest rfl
    exact h pre mark rest hsplit

/-- No key starts behind the byte: where a dot or a hash stands outside brackets and nothing hides it, the
name after it is empty or starts with a digit. -/
def NoKeyBehind (selector : List Char) (offset : Nat) : Prop :=
  ∀ pre mark rest, selector = pre ++ mark :: rest → offset < byteLength pre →
    (mark = '.' ∨ mark = '#') → enclosure pre = .outside →
      ∀ c ∈ (rest.takeWhile isNameChar).head?, c.isDigit = true

theorem noKeyBehind_iff (pre : List Char) (c : Char) (post : List Char) :
    NoKeyBehind (pre ++ c :: post) (byteLength pre) ↔ KeyFree ((enclosure pre).step c) post := by
  have henclosure : ∀ mid, enclosure (pre ++ c :: mid) =
      mid.foldl Enclosure.step ((enclosure pre).step c) := fun mid => List.foldl_append ..
  rw [keyFree_iff]
  constructor
  · rintro h mid mark rest rfl hmark hmid
    refine h (pre ++ c :: mid) mark rest (by simp) ?_ hmark ((henclosure mid).trans hmid)
    have := c.utf8Size_pos
    rw [byteLength_append, byteLength_cons]
    omega
  · intro h later mark rest hsplit hlt hmark hlater
    obtain ⟨mid, rfl, rfl⟩ := exists_of_byteLength_lt hsplit hlt
    exact h mid mark rest rfl hmark ((henclosure mid).symm.trans hlater)

/-- The key of a selector is the last one that stands in it at a place outside brackets that nothing
hides. -/
theorem selectorKey?_eq_some_iff {selector : List Char} :
    selectorKey? selector = some key ↔ key.Named ∧ ∃ pre post, selector = pre ++ key.token ++ post ∧
      (∀ c ∈ post.head?, isNameChar c = false) ∧ enclosure pre = .outside ∧
      NoKeyBehind selector (byteLength pre) := by
  have hscan : selectorKey? selector = some key ↔ HasLastKey .outside selector key :=
    (lastKey_eq_some_iff .outside none selector).trans (by simp)
  rw [hscan]
  constructor
  · rintro ⟨pre, mark, cs, rfl, hkey, hfree⟩
    obtain ⟨hout, hnamed, post, htext, hpost⟩ := keyAt?_eq_some_iff.mp hkey
    refine ⟨hnamed, pre, post, ?_, hpost, hout, (noKeyBehind_iff pre mark cs).mpr hfree⟩
    rw [htext, List.append_assoc]
  · rintro ⟨hnamed, pre, post, rfl, hpost, hout, hlater⟩
    obtain ⟨mark, -, htoken⟩ := key.token_eq_cons
    have hsplit : pre ++ key.token ++ post = pre ++ mark :: (key.name ++ post) := by
      rw [htoken, List.append_assoc, List.cons_append]
    rw [hsplit, noKeyBehind_iff] at hlater
    refine ⟨pre, mark, key.name ++ post, hsplit, ?_, hlater⟩
    exact keyAt?_eq_some_iff.mpr ⟨hout, hnamed, post, by rw [htoken, List.cons_append], hpost⟩

end Keys

section LookUps

variable {selector : List Char} {key : SelectorKey}

namespace JavaScript

/-- The script looks elements up by the selector, which stands in it as a string at the byte. -/
def LooksUp (s : SourceText) (selector : List Char) (offset : Nat) : Prop :=
  ∃ m ∈ lookupCall.searchAll 0 s.chars, ∃ g, m.group? 1 = some g ∧
    lookupMode (s.slice g.start g.stop) = .selector ∧
    (offset, selector) ∈ stringArguments 1 m.span.stop (dropBytes m.span.stop s.chars)

theorem LooksUp.exists_append {s : SourceText} {offset : Nat} (h : LooksUp s selector offset) :
    ∃ front back, s.chars = front ++ selector ++ back ∧ byteLength front = offset := by
  obtain ⟨m, hm, g, -, -, hargument⟩ := h
  obtain ⟨hstop, -⟩ := Pattern.onBoundary_of_mem_searchAll hm
  obtain ⟨front, back, hchars, hfront⟩ := onBoundary_iff.mp hstop
  obtain ⟨pre, post, n, htext, hplace⟩ := exists_of_mem_stringArguments hargument
  obtain ⟨rfl, rfl⟩ := Prod.mk.inj hplace
  rw [← hfront, hchars, dropBytes_byteLength] at htext
  refine ⟨front ++ pre, dropBytes n post, ?_, by rw [byteLength_append, hfront]⟩
  rw [hchars, htext, List.append_assoc, List.append_assoc, takeBytes_append_dropBytes]

/-- Where the token stands in the selector, there it stands in the string. -/
theorem LooksUp.slice_eq {s : SourceText} {offset i : Nat} (h : LooksUp s selector offset)
    (htoken : IsToken key.token) (hi : i ∈ tokenOffsets key.token selector) :
    s.slice (offset + i) (offset + i + byteLength key.token) = key.token := by
  obtain ⟨front, back, hchars, rfl⟩ := h.exists_append
  obtain ⟨pre, post, rfl, rfl, -, -⟩ := (mem_tokenOffsets_iff htoken).mp hi
  have hsplit : s.chars = (front ++ pre) ++ key.token ++ (post ++ back) := by
    rw [hchars]
    simp only [List.append_assoc]
  rw [SourceText.slice, hsplit, ← byteLength_append]
  exact sliceBytes_append ..

/-- A look-up by the name of a selector is a place that may use it. -/
theorem LooksUp.mem_candidates {s : SourceText} {symbol : Symbol} {offset i size : Nat}
    (h : LooksUp s selector offset) (hkind : symbol.kind = .selector)
    (hname : symbol.name.toList = selector) (hkey : selectorKey? selector = some key)
    (hhit : lookupHit? .selector key selector = some (i, size)) :
    Candidate.sure (offset + i) (offset + i + size) .reference ∈ candidates s symbol := by
  obtain ⟨m, hm, g, hg, hmode, hargument⟩ := h
  have hcandidates : candidates s symbol = selectorCandidates s key := by
    simp only [candidates, hkind, hname, hkey]
  rw [hcandidates]
  refine List.mem_append_left _ (List.mem_flatMap.mpr ⟨m, hm, ?_⟩)
  simp only [hg, hmode]
  exact List.mem_filterMap.mpr ⟨(offset, selector), hargument, by simp [hhit]⟩

end JavaScript

/-- A selector looked up in itself is found at the first place of its token. -/
theorem exists_lookupHit? {i : Nat} (h : i ∈ tokenOffsets key.token selector) :
    ∃ j ∈ tokenOffsets key.token selector,
      JavaScript.lookupHit? .selector key selector = some (j, byteLength key.token) := by
  obtain ⟨j, places, hplaces⟩ := List.exists_cons_of_ne_nil (List.ne_nil_of_mem h)
  refine ⟨j, by simp [hplaces], ?_⟩
  simp [JavaScript.lookupHit?, hplaces]

/-- The key of a selector is the one with a name whose token is found in the selector at a place outside
brackets that nothing hides, and behind which no other key starts. So the token is found where a script
looks elements up by the selector as it is written. -/
theorem selectorKey?_recognised (selector : List Char) (key : SelectorKey) :
    (selectorKey? selector = some key ↔
      key.Named ∧ ∃ pre post, selector = pre ++ key.token ++ post ∧
        byteLength pre ∈ tokenOffsets key.token selector ∧ enclosure pre = .outside ∧
        NoKeyBehind selector (byteLength pre)) ∧
    (selectorKey? selector = some key →
      (∃ i ∈ tokenOffsets key.token selector,
        JavaScript.lookupHit? .selector key selector = some (i, byteLength key.token)) ∧
      ∀ (s : SourceText) (symbol : Symbol) (offset : Nat), symbol.kind = .selector →
        symbol.name.toList = selector → JavaScript.LooksUp s selector offset →
        ∃ i ∈ tokenOffsets key.token selector,
          s.slice (offset + i) (offset + i + byteLength key.token) = key.token ∧
          Candidate.sure (offset + i) (offset + i + byteLength key.token) .reference ∈
            JavaScript.candidates s symbol) := by
  have hdescribed : selectorKey? selector = some key ↔
      key.Named ∧ ∃ pre post, selector = pre ++ key.token ++ post ∧
        byteLength pre ∈ tokenOffsets key.token selector ∧ enclosure pre = .outside ∧
        NoKeyBehind selector (byteLength pre) := by
    rw [selectorKey?_eq_some_iff]
    refine and_congr_right fun hnamed => exists_congr fun pre => exists_congr fun post => ?_
    refine and_congr_right fun hselector => and_congr_left' ?_
    rw [hselector, hnamed.mem_tokenOffsets_iff]
  refine ⟨hdescribed, fun hkey => ?_⟩
  obtain ⟨hnamed, pre, -, -, hfound, -⟩ := hdescribed.mp hkey
  obtain ⟨i, hi, hhit⟩ := exists_lookupHit? hfound
  refine ⟨⟨i, hi, hhit⟩, fun s symbol offset hkind hname hlooks => ⟨i, hi, ?_, ?_⟩⟩
  · exact hlooks.slice_eq hnamed.isToken hi
  · exact hlooks.mem_candidates hkind hname hkey hhit

/-- A selector that holds its key in brackets as well, and behind it a name with a digit in front and one
that a backslash hides. -/
def hiddenName : Symbol :=
  { id := "", name := ":not(.a) .a#1\\#b", kind := .selector, filePath := "a.css", position := ⟨0, 0⟩,
    range := ⟨⟨0, 0⟩, ⟨0, 19⟩⟩ }

/-- A script that looks elements up by it. -/
def hiddenNameScript : SourceText :=
  Language.javascript.source "$(':not(.a) .a#1\\#b');\n"

theorem selectorKey?_recognised_hiddenName :
    selectorKey? hiddenName.name.toList = some (.className ['a']) ∧
      (∃ pre post, hiddenName.name.toList = pre ++ ".a".toList ++ post ∧
        byteLength pre ∈ tokenOffsets ".a".toList hiddenName.name.toList ∧
        enclosure pre = .outside ∧ NoKeyBehind hiddenName.name.toList (byteLength pre)) ∧
      JavaScript.LooksUp hiddenNameScript hiddenName.name.toList 3 ∧
      ∃ i ∈ tokenOffsets ".a".toList hiddenName.name.toList,
        Candidate.sure (3 + i) (3 + i + 2) .reference ∈
          JavaScript.candidates hiddenNameScript hiddenName := by
  have hkey : selectorKey? hiddenName.name.toList = some (.className ['a']) := by decide +kernel
  have hlooks : JavaScript.LooksUp hiddenNameScript hiddenName.name.toList 3 :=
    ⟨⟨⟨0, 2⟩, [(1, ⟨0, 1⟩)]⟩, by decide +kernel, ⟨0, 1⟩, rfl, by decide +kernel, by decide +kernel⟩
  obtain ⟨hdescribed, hfound⟩ := selectorKey?_recognised hiddenName.name.toList (.className ['a'])
  obtain ⟨i, hi, -, hcandidate⟩ := (hfound hkey).2 hiddenNameScript hiddenName 3 rfl rfl hlooks
  exact ⟨hkey, (hdescribed.mp hkey).2, hlooks, i, hi, hcandidate⟩

end LookUps

end Concordance
