import Mathlib.Data.UInt
import Concordance.Proofs.Source.Braces
import Concordance.Proofs.Source.ByteComments

/-!
Literals and braces found in the bytes of a text.

A search in the bytes passes over comments and literals as a whole and goes on by one byte otherwise,
so it meets the bytes of a character one by one. Those of a character outside ASCII mean nothing to a
search for braces, and the search finds what a search in the code of the text finds (`search_utf8`),
from any byte, also from one within a character. Every step leads on (`lt_of_commentEnd?`,
`lt_of_stringEnd?`).
-/

namespace Concordance

open Text Digest SourceText

namespace Bytewise

/-- The end of the string literal that opens at the byte. -/
def stringEnd? (rules : LexicalRules) (bytes : List UInt8) (offset : Nat) : Option Nat :=
  match bytes[offset]? with
  | none => none
  | some b =>
    if isQuote rules b then some (offset + 1 + literalLength b (bytes.drop (offset + 1))) else none

section Progress

variable {rules : LexicalRules} {bytes : List UInt8} {spans : List Span} {offset stop : Nat}

theorem lt_of_commentEnd? (h : commentEnd? spans offset = some stop) : offset < stop := by
  unfold commentEnd? at h
  split at h
  · cases h
  · obtain ⟨span, hspan, rfl⟩ := Option.map_eq_some_iff.mp h
    exact (Span.covers_iff.mp (Option.filter_eq_some_iff.mp hspan).2).2

theorem lt_of_stringEnd? (h : stringEnd? rules bytes offset = some stop) : offset < stop := by
  unfold stringEnd? at h
  split at h
  · cases h
  · split at h
    · obtain rfl := Option.some.inj h
      omega
    · cases h

end Progress

/-- The answer of a search in the bytes from one on. -/
def search {σ : Type} (visit : σ → CodeChar → Verdict σ) (rules : LexicalRules)
    (bytes : List UInt8) (state : σ) (offset : Nat) : Option Nat :=
  if hlt : offset < bytes.length then
    match hcomment : commentEnd? (comments rules bytes) offset with
    | some stop => search visit rules bytes state stop
    | none =>
      match hliteral : stringEnd? rules bytes offset with
      | some stop => search visit rules bytes state stop
      | none =>
        match visit state ⟨offset, bytes[offset].toChar⟩ with
        | .go state => search visit rules bytes state (offset + 1)
        | .stop answer => answer
  else none
termination_by bytes.length - offset
decreasing_by
  · have := lt_of_commentEnd? hcomment
    omega
  · have := lt_of_stringEnd? hliteral
    omega
  · omega

/-- The brace that closes the one at `start`. -/
def matchingBrace? (rules : LexicalRules) (bytes : List UInt8) (start : Nat) : Option Nat :=
  if bytes[start]? = some '{'.toUInt8 then search closingBrace rules bytes 0 start else none

/-- The brace that opens a block after `start`, where `parens` parentheses are open. -/
def findBlockOpen? (rules : LexicalRules) (bytes : List UInt8) (start parens : Nat) : Option Nat :=
  search blockOpen rules bytes parens start

section Steps

variable {σ : Type} {visit : σ → CodeChar → Verdict σ} {rules : LexicalRules} {bytes : List UInt8}
  {offset stop : Nat} {b : UInt8}

theorem search_of_length_le (state : σ) (h : bytes.length ≤ offset) :
    search visit rules bytes state offset = none := by
  rw [search, dif_neg (Nat.not_lt_of_le h)]

theorem search_of_comment (state : σ) (hlt : offset < bytes.length)
    (h : commentEnd? (comments rules bytes) offset = some stop) :
    search visit rules bytes state offset = search visit rules bytes state stop := by
  rw [search, dif_pos hlt]
  split
  · next stop' hstop =>
    obtain rfl := Option.some.inj (h.symm.trans hstop)
    rfl
  · next hnone => cases h.symm.trans hnone

theorem search_of_literal (state : σ) (hlt : offset < bytes.length)
    (hfree : commentEnd? (comments rules bytes) offset = none)
    (h : stringEnd? rules bytes offset = some stop) :
    search visit rules bytes state offset = search visit rules bytes state stop := by
  rw [search, dif_pos hlt]
  split
  · next stop' hstop => cases hfree.symm.trans hstop
  · split
    · next stop' hstop =>
      obtain rfl := Option.some.inj (h.symm.trans hstop)
      rfl
    · next hnone => cases h.symm.trans hnone

theorem search_of_byte (state : σ) (hb : bytes[offset]? = some b)
    (hfree : commentEnd? (comments rules bytes) offset = none)
    (h : stringEnd? rules bytes offset = none) :
    search visit rules bytes state offset =
      match visit state ⟨offset, b.toChar⟩ with
      | .go state => search visit rules bytes state (offset + 1)
      | .stop answer => answer := by
  obtain ⟨hlt, rfl⟩ := List.getElem?_eq_some_iff.mp hb
  rw [search, dif_pos hlt]
  split
  · next stop' hstop => cases hfree.symm.trans hstop
  · split
    · next stop' hstop => cases h.symm.trans hstop
    · rfl

end Steps

end Bytewise

namespace SourceText

variable {s : SourceText} {front back : List Char} {c : Char} {k : Nat}

/-- From within a character on, the code is that behind the character. -/
theorem codeFrom_within (hchars : s.chars = front ++ c :: back) (hpos : k ≠ 0)
    (hle : k ≤ c.utf8Size) :
    s.codeFrom (byteLength front + k) = s.codeFrom (byteLength front + c.utf8Size) := by
  have htake : ∀ k, k ≠ 0 → k ≤ c.utf8Size →
      takeBytes (byteLength front + k) s.chars = front ++ [c] := by
    intro k hk hle
    rw [hchars, takeBytes_append, takeBytes_cons hk, Nat.sub_eq_zero_of_le hle, takeBytes_zero]
  have hdrop : ∀ k, k ≠ 0 → k ≤ c.utf8Size → dropBytes (byteLength front + k) s.chars = back := by
    intro k hk hle
    rw [hchars, dropBytes_append, dropBytes_cons hk, Nat.sub_eq_zero_of_le hle, dropBytes_zero]
  have hsize := c.utf8Size_pos
  rw [codeFrom, codeFrom, spotAt, spotAt, offset_spotAt, offset_spotAt, rest_spotAt, rest_spotAt,
    htake k hpos hle, hdrop k hpos hle, htake _ (Nat.pos_iff_ne_zero.mp hsize) (Nat.le_refl _),
    hdrop _ (Nat.pos_iff_ne_zero.mp hsize) (Nat.le_refl _)]

theorem codeFrom_of_length_le {offset : Nat} (h : s.length ≤ offset) : s.codeFrom offset = [] := by
  have hrest : dropBytes offset s.chars = [] := by
    obtain ⟨k, rfl⟩ := Nat.exists_eq_add_of_le h
    have hdrop := dropBytes_append s.chars k []
    rwa [List.append_nil, dropBytes_nil] at hdrop
  rw [codeFrom, spotAt, rest_spotAt, hrest]
  rfl

theorem commentEnd?_eq_none {offset : Nat} (h : s.inComment offset = false) :
    s.commentEnd? offset = none :=
  Option.not_isSome_iff_eq_none.mp (Bool.eq_false_iff.mp h)

theorem lt_length_of_commentEnd? {offset stop : Nat} (h : s.commentEnd? offset = some stop) :
    offset < s.length :=
  Nat.lt_of_not_le fun hend => by cases (commentEnd?_of_length_le hend).symm.trans h

theorem lt_length_of_stringEnd? {offset stop : Nat} (h : s.stringEnd? offset = some stop) :
    offset < s.length := by
  obtain ⟨c, hchar, -⟩ := exists_quote_of_stringEnd? h
  exact Nat.lt_of_not_le fun hend => by cases (charAt?_of_length_le hend).symm.trans hchar

/-- A comment ends at the next byte, or it covers that byte too. -/
theorem commentEnd?_succ {offset stop : Nat} (h : s.commentEnd? offset = some stop) :
    offset + 1 = stop ∨ s.commentEnd? (offset + 1) = some stop ∧ offset + 1 < s.length := by
  obtain ⟨span, hspan, rfl, hstart, hstop⟩ := commentEnd?_eq_some_iff.mp h
  have hlength := le_of_onBoundary (onBoundary_stop hspan)
  rcases Nat.eq_or_lt_of_le (Nat.succ_le_of_lt hstop) with hend | hbehind
  · exact Or.inl hend
  · refine Or.inr ⟨commentEnd?_eq_some_iff.mpr ⟨span, hspan, rfl, ?_, hbehind⟩, ?_⟩
    · omega
    · exact Nat.lt_of_lt_of_le hbehind hlength

theorem charAt?_byteLength (hchars : s.chars = front ++ c :: back) :
    s.charAt? (byteLength front) = some c :=
  charAt?_of_chars hchars

/-- No other character starts within a character. -/
theorem charAt?_within (hchars : s.chars = front ++ c :: back) (hpos : 0 < k)
    (hlt : k < c.utf8Size) : s.charAt? (byteLength front + k) = none := by
  cases hchar : s.charAt? (byteLength front + k) with
  | none => rfl
  | some d =>
    obtain ⟨pre, post, hpre, hoffset⟩ := charAt?_eq_some_iff.mp hchar
    have := add_utf8Size_le_of_lt (hchars.symm.trans hpre) (by omega)
    omega

end SourceText

namespace Bytewise

section Texts

variable {s : SourceText} {front back : List Char} {c : Char} {offset k : Nat}

theorem high_of_within (hpos : 0 < k) (hlt : k < c.utf8Size) : 0x80 ≤ c.toNat := by
  rcases ascii_or_high c with ⟨hc, -⟩ | ⟨hc, -⟩
  · rw [utf8Size_of_ascii hc] at hlt
    omega
  · exact hc

theorem exists_high_byte (hchars : s.chars = front ++ c :: back) (hc : 0x80 ≤ c.toNat)
    (hlt : k < c.utf8Size) :
    ∃ b, (utf8 s.chars)[byteLength front + k]? = some b ∧ 0x80 ≤ b.toNat := by
  have hlength : k < (String.utf8EncodeChar c).length := by rwa [String.length_utf8EncodeChar]
  rw [hchars, getElem?_utf8_char hlt, List.getElem?_eq_getElem hlength]
  exact ⟨_, rfl, le_toNat_of_mem_utf8EncodeChar hc (List.getElem_mem hlength)⟩

theorem getElem?_of_ascii (hchars : s.chars = front ++ c :: back) (hc : c.toNat < 0x80) :
    (utf8 s.chars)[byteLength front]? = some c.toUInt8 := by
  have hsize := c.utf8Size_pos
  have hget := getElem?_utf8_char (k := 0) hsize front back
  rwa [Nat.add_zero, utf8EncodeChar_of_ascii hc, ← hchars] at hget

theorem stringEnd?_of_high (hrules : s.rules.Ascii) {b : UInt8}
    (hb : (utf8 s.chars)[offset]? = some b) (hhigh : 0x80 ≤ b.toNat) :
    stringEnd? s.rules (utf8 s.chars) offset = none := by
  rw [stringEnd?, hb]
  exact if_neg (by rw [isQuote_of_high hrules hhigh]; exact Bool.false_ne_true)

theorem stringEnd?_of_not_quote (hchar : s.charAt? offset = some c)
    (hc : s.rules.quotes.contains c = false) : s.stringEnd? offset = none := by
  rw [SourceText.stringEnd?, hchar]
  exact if_neg (by rw [hc]; exact Bool.false_ne_true)

theorem stringEnd?_of_ascii (hrules : s.rules.Ascii) (hchars : s.chars = front ++ c :: back)
    (hc : c.toNat < 0x80) :
    stringEnd? s.rules (utf8 s.chars) (byteLength front) = s.stringEnd? (byteLength front) := by
  have hsize := utf8Size_of_ascii hc
  have hdrop : (utf8 s.chars).drop (byteLength front + 1) = utf8 back := by
    rw [hchars, ← hsize, drop_utf8_char (Nat.le_refl _), ← String.length_utf8EncodeChar,
      List.drop_length, List.nil_append]
  rw [stringEnd?, getElem?_of_ascii hchars hc]
  dsimp only
  rw [isQuote_toUInt8 hrules hc, hdrop, literalLength_utf8 hc]
  cases hquote : s.rules.quotes.contains c with
  | true =>
    rw [SourceText.stringEnd?_of_quote hchars hquote, hsize]
    rfl
  | false =>
    rw [stringEnd?_of_not_quote (SourceText.charAt?_byteLength hchars) hquote]
    rfl

/-- A literal of a text has the bytes of its characters, and none opens within a character. -/
theorem stringEnd?_utf8 (hrules : s.rules.Ascii) (offset : Nat) :
    stringEnd? s.rules (utf8 s.chars) offset = s.stringEnd? offset := by
  rcases Nat.lt_or_ge offset s.length with hlt | hge
  · obtain ⟨front, c, back, hchars, hle, hlt⟩ := exists_char_of_lt hlt
    obtain ⟨k, rfl⟩ := Nat.exists_eq_add_of_le hle
    have hk : k < c.utf8Size := by omega
    rcases Nat.eq_zero_or_pos k with rfl | hpos
    · rcases ascii_or_high c with ⟨hc, -⟩ | ⟨hc, -⟩
      · exact stringEnd?_of_ascii hrules hchars hc
      · obtain ⟨b, hb, hhigh⟩ := exists_high_byte hchars hc hk
        rw [stringEnd?_of_high hrules hb hhigh]
        exact (stringEnd?_of_not_quote (SourceText.charAt?_byteLength hchars)
          (contains_quotes_of_high hrules hc)).symm
    · obtain ⟨b, hb, hhigh⟩ := exists_high_byte hchars (high_of_within hpos hk) hk
      rw [stringEnd?_of_high hrules hb hhigh, SourceText.stringEnd?,
        SourceText.charAt?_within hchars hpos hk]
  · rw [stringEnd?, List.getElem?_eq_none (by rwa [length_utf8]), SourceText.stringEnd?,
      SourceText.charAt?_of_length_le hge]

section Search

variable {σ : Type} {visit : σ → CodeChar → Verdict σ}

/-- A byte outside ASCII takes a search to the next one. -/
theorem search_of_high (hrules : s.rules.Ascii)
    (hvisit : ∀ state x, 0x80 ≤ x.char.toNat → visit state x = .go state) (state : σ) {b : UInt8}
    (hb : (utf8 s.chars)[offset]? = some b) (hhigh : 0x80 ≤ b.toNat) :
    search visit s.rules (utf8 s.chars) state offset =
      search visit s.rules (utf8 s.chars) state (offset + 1) := by
  have hcomments := fun offset => commentEnd?_utf8 hrules (s := s) offset
  cases hcomment : s.commentEnd? offset with
  | none =>
    rw [search_of_byte state hb ((hcomments _).trans hcomment) (stringEnd?_of_high hrules hb hhigh),
      hvisit state ⟨_, b.toChar⟩ hhigh]
  | some stop =>
    have hlt := (List.getElem?_eq_some_iff.mp hb).1
    rw [search_of_comment state hlt ((hcomments _).trans hcomment)]
    rcases SourceText.commentEnd?_succ hcomment with hend | ⟨hcomment', hlt'⟩
    · rw [← hend]
    · have hinside : offset + 1 < (utf8 s.chars).length := by rwa [length_utf8]
      exact (search_of_comment state hinside ((hcomments _).trans hcomment')).symm

/-- What no byte of a character outside ASCII changes is the same behind the character. -/
theorem eq_behind_of_high {α : Type} {f : Nat → α} (hchars : s.chars = front ++ c :: back)
    (hc : 0x80 ≤ c.toNat)
    (h : ∀ n b, byteLength front ≤ n → n < byteLength front + c.utf8Size →
      (utf8 s.chars)[n]? = some b → 0x80 ≤ b.toNat → f n = f (n + 1)) (hle : k ≤ c.utf8Size) :
    f (byteLength front + k) = f (byteLength front + c.utf8Size) := by
  obtain ⟨d, hd⟩ := Nat.exists_eq_add_of_le hle
  induction d generalizing k with
  | zero => rw [hd, Nat.add_zero]
  | succ d ih =>
    have hlt : k < c.utf8Size := by omega
    obtain ⟨b, hb, hhigh⟩ := exists_high_byte hchars hc hlt
    rw [h _ b (Nat.le_add_right _ _) (Nat.add_lt_add_left hlt _) hb hhigh]
    exact ih hlt (by omega)

/-- Within a character outside ASCII a search goes on behind it. -/
theorem search_within (hrules : s.rules.Ascii)
    (hvisit : ∀ state x, 0x80 ≤ x.char.toNat → visit state x = .go state) (state : σ)
    (hchars : s.chars = front ++ c :: back) (hc : 0x80 ≤ c.toNat) (hle : k ≤ c.utf8Size) :
    search visit s.rules (utf8 s.chars) state (byteLength front + k) =
      search visit s.rules (utf8 s.chars) state (byteLength front + c.utf8Size) :=
  eq_behind_of_high hchars hc (fun _ _ _ _ hb hhigh => search_of_high hrules hvisit state hb hhigh)
    hle

theorem toChar_toUInt8 (hc : c.toNat < 0x80) : c.toUInt8.toChar = c :=
  Char.toNat_inj.mp (toNat_toUInt8 hc)

/-- A search in the bytes of a text finds what a search in the characters that a run meets finds. -/
theorem search_of_meets (hrules : s.rules.Ascii)
    (hvisit : ∀ state x, 0x80 ≤ x.char.toNat → visit state x = .go state)
    {code : List CodeChar} (h : s.Meets offset code) (state : σ) :
    search visit s.rules (utf8 s.chars) state offset = searchList visit state code := by
  have hlt : ∀ {offset : Nat}, offset < s.length → offset < (utf8 s.chars).length := by
    intro offset hlt
    rwa [length_utf8]
  have hnone : ∀ {offset : Nat}, s.inComment offset = false →
      commentEnd? (comments s.rules (utf8 s.chars)) offset = none := fun hfree =>
    (commentEnd?_utf8 hrules _).trans (SourceText.commentEnd?_eq_none hfree)
  induction h generalizing state with
  | done hend => exact search_of_length_le state (by rwa [length_utf8])
  | comment hcomment _ ih =>
    rw [search_of_comment state (hlt (lt_length_of_commentEnd? hcomment)) ((commentEnd?_utf8 hrules _).trans hcomment)]
    exact ih state
  | literal hfree hliteral _ ih =>
    rw [search_of_literal state (hlt (lt_length_of_stringEnd? hliteral)) (hnone hfree)
      ((stringEnd?_utf8 hrules _).trans hliteral)]
    exact ih state
  | @code offset c code hfree hchar hquote _ ih =>
    obtain ⟨front, back, hchars, rfl⟩ := SourceText.charAt?_eq_some_iff.mp hchar
    rw [searchList]
    rcases ascii_or_high c with ⟨hc, -⟩ | ⟨hc, -⟩
    · have hliteral : stringEnd? s.rules (utf8 s.chars) (byteLength front) = none := by
        rw [stringEnd?_utf8 hrules]
        exact stringEnd?_of_not_quote hchar (by simpa using hquote)
      rw [search_of_byte state (getElem?_of_ascii hchars hc) (hnone hfree) hliteral,
        toChar_toUInt8 hc, ← utf8Size_of_ascii hc]
      cases visit state ⟨byteLength front, c⟩ with
      | go state => exact ih state
      | stop answer => rfl
    · rw [hvisit state ⟨_, c⟩ hc]
      dsimp only
      rw [← ih state]
      exact search_within hrules hvisit state hchars hc (Nat.zero_le _)

/-- A search in the bytes of a text finds what a search in its code finds, if only characters of ASCII
mean something to it. -/
theorem search_utf8 (hrules : s.rules.Ascii)
    (hvisit : ∀ state x, 0x80 ≤ x.char.toNat → visit state x = .go state) (state : σ)
    (offset : Nat) :
    search visit s.rules (utf8 s.chars) state offset =
      searchList visit state (s.codeFrom offset) := by
  have hplace : ∀ {offset : Nat}, onBoundary offset s.chars = true →
      search visit s.rules (utf8 s.chars) state offset =
        searchList visit state (s.codeFrom offset) := fun h =>
    search_of_meets hrules hvisit (SourceText.meets_codeFrom h) state
  rcases Nat.lt_or_ge offset s.length with hlt | hge
  · obtain ⟨front, c, back, hchars, hle, hlt⟩ := exists_char_of_lt hlt
    obtain ⟨k, rfl⟩ := Nat.exists_eq_add_of_le hle
    have hk : k < c.utf8Size := by omega
    have hbehind : onBoundary (byteLength front + c.utf8Size) s.chars = true :=
      hchars ▸ onBoundary_behind front c back
    rcases Nat.eq_zero_or_pos k with rfl | hpos
    · exact hplace (hchars ▸ onBoundary_byteLength front (c :: back))
    · rw [search_within hrules hvisit state hchars (high_of_within hpos hk) hk.le,
        SourceText.codeFrom_within hchars hpos.ne' hk.le]
      exact hplace hbehind
  · rw [search_of_length_le state (by rwa [length_utf8]), SourceText.codeFrom_of_length_le hge]
    rfl

end Search

/-- A brace is no byte of another character. -/
theorem getElem?_eq_iff (hc : c.toNat < 0x80) :
    (utf8 s.chars)[offset]? = some c.toUInt8 ↔ s.charAt? offset = some c := by
  constructor
  · intro hb
    have hlt := (List.getElem?_eq_some_iff.mp hb).1
    rw [length_utf8] at hlt
    obtain ⟨front, d, back, hchars, hle, hlt⟩ := exists_char_of_lt hlt
    obtain ⟨k, rfl⟩ := Nat.exists_eq_add_of_le hle
    have hk : k < d.utf8Size := by omega
    have hlow : d.toNat < 0x80 := by
      by_contra hd
      obtain ⟨b, hb', hhigh⟩ := exists_high_byte hchars (Nat.le_of_not_lt hd) hk
      exact ne_toUInt8 hhigh hc (Option.some.inj (hb'.symm.trans hb))
    obtain rfl : k = 0 := by
      rw [utf8Size_of_ascii hlow] at hk
      omega
    rw [Nat.add_zero, getElem?_of_ascii hchars hlow, Option.some.injEq, toUInt8_eq_iff hlow hc] at hb
    exact hb ▸ SourceText.charAt?_byteLength hchars
  · intro hchar
    obtain ⟨front, back, hchars, rfl⟩ := charAt?_eq_some_iff.mp hchar
    exact getElem?_of_ascii hchars hc

theorem closingBrace_of_high (depth : Int) (x : CodeChar) (h : 0x80 ≤ x.char.toNat) :
    closingBrace depth x = .go depth := by
  rw [closingBrace, if_neg (ne_of_high h (by decide)), if_neg (ne_of_high h (by decide))]

theorem blockOpen_of_high (depth : Nat) (x : CodeChar) (h : 0x80 ≤ x.char.toNat) :
    blockOpen depth x = .go depth := by
  rw [blockOpen, if_neg (ne_of_high h (by decide)), if_neg (ne_of_high h (by decide)),
    if_neg fun hx => ne_of_high h (by decide) hx.1, if_neg fun hx => ne_of_high h (by decide) hx.1]

theorem matchingBrace?_utf8 (hrules : s.rules.Ascii) (start : Nat) :
    matchingBrace? s.rules (utf8 s.chars) start = s.matchingBrace? start := by
  have hbrace : (utf8 s.chars)[start]? = some '{'.toUInt8 ↔ s.charAt? start = some '{' :=
    getElem?_eq_iff (by decide)
  rw [matchingBrace?]
  by_cases hchar : s.charAt? start = some '{'
  · rw [if_pos (hbrace.mpr hchar), matchingBrace?_of_charAt? hchar]
    exact search_utf8 hrules closingBrace_of_high 0 start
  · rw [if_neg (mt hbrace.mp hchar)]
    cases hclose : s.matchingBrace? start with
    | none => rfl
    | some close => exact absurd (charAt?_of_matchingBrace? hclose) hchar

theorem findBlockOpen?_utf8 (hrules : s.rules.Ascii) (start parens : Nat) :
    findBlockOpen? s.rules (utf8 s.chars) start parens = s.findBlockOpen? start parens := by
  rw [SourceText.findBlockOpen?, searchFrom_spotAt]
  exact search_utf8 hrules blockOpen_of_high parens start

end Texts

end Bytewise

namespace SourceText

variable {s : SourceText} {offset : Nat}

theorem onBoundary_of_stringEnd? {stop : Nat} (h : s.stringEnd? offset = some stop) :
    onBoundary stop s.chars = true := by
  obtain ⟨c, hchar, hquote, -⟩ := exists_quote_of_stringEnd? h
  obtain ⟨front, back, hchars, rfl⟩ := charAt?_eq_some_iff.mp hchar
  rw [stringEnd?_of_quote hchars (by simpa using hquote), Option.some.injEq] at h
  obtain ⟨inner, rest, rfl, hinner⟩ := onBoundary_iff.mp (onBoundary_literalLength c back)
  rw [← h, ← hinner, Nat.add_assoc, ← byteLength_cons, ← byteLength_append, hchars]
  exact onBoundary_iff.mpr ⟨front ++ c :: inner, rest, by simp, rfl⟩

theorem onBoundary_of_matchingBrace? {close : Nat} (h : s.matchingBrace? offset = some close) :
    onBoundary close s.chars = true := by
  obtain ⟨front, back, hcode, -⟩ := exists_front_of_matchingBrace? h
  have hmem : ⟨close, '}'⟩ ∈ s.codeFrom offset := by
    rw [hcode]
    exact List.mem_append_right _ List.mem_cons_self
  obtain ⟨pre, post, hchars, hclose⟩ := mem_codeFrom hmem
  exact onBoundary_iff.mpr ⟨pre, _, hchars, hclose⟩

theorem onBoundary_of_findBlockOpen? {parens start : Nat}
    (h : s.findBlockOpen? offset parens = some start) : onBoundary start s.chars = true := by
  rw [findBlockOpen?, searchFrom_spotAt] at h
  obtain ⟨x, hmem, -, rfl⟩ := searchList_blockOpen h
  obtain ⟨pre, post, hchars, hstart⟩ := mem_codeFrom hmem
  exact onBoundary_iff.mpr ⟨pre, _, hchars, hstart⟩

end SourceText

end Concordance
