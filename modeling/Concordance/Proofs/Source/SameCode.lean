import Mathlib.Data.List.Infix
import Mathlib.Data.List.Pairwise
import Concordance.Proofs.Source.Position
import Concordance.Proofs.Source.Spans
import Concordance.Proofs.Text.Shared

/-!
Two texts that differ in their comments only.

`SameCode` asks that comments cover the same bytes, that line feeds stand at the same bytes and that
outside comments the texts agree. Read side by side (`Alike`), such texts take a code character
together or a comment each. Before a place outside comments they agree back to the start of the text,
of the line or to the end of a comment (`Tied`), and behind it up to the end of the text or the next
comment (`Forked`).

Main statements: `SameCode.alike` and `SameCode.occurrences` (a text that no comment cuts stands at the
same places outside comments in both).
-/

namespace Concordance

open Text

namespace Text

/-- As long as something is left, a cut takes all the bytes before it. -/
theorem le_byteLength_takeBytes {n : Nat} {text : List Char} (h : dropBytes n text ≠ []) :
    n ≤ byteLength (takeBytes n text) := by
  induction text generalizing n with
  | nil => exact absurd (dropBytes_nil n) h
  | cons c text ih =>
    by_cases hn : n = 0
    · exact hn ▸ Nat.zero_le _
    · rw [dropBytes_cons hn] at h
      have hle := ih h
      rw [takeBytes_cons hn, byteLength_cons]
      omega

end Text

namespace SourceText

variable {s t : SourceText} {n : Nat}

theorem charAt?_of_length_le (h : s.length ≤ n) : s.charAt? n = none := by
  cases hc : s.charAt? n with
  | none => rfl
  | some c =>
    obtain ⟨front, back, hchars, rfl⟩ := charAt?_eq_some_iff.mp hc
    have := c.utf8Size_pos
    rw [length, hchars, byteLength_append, byteLength_cons] at h
    omega

/-- The line of a byte counts the line feeds that start before it. -/
theorem lineOf_succ (s : SourceText) (n : Nat) :
    s.lineOf (n + 1) = s.lineOf n + if s.charAt? n = some '\n' then 1 else 0 := by
  simp only [lineOf, spotAt, line_spotAt]
  cases hc : s.charAt? n with
  | some c =>
    obtain ⟨front, back, hchars, rfl⟩ := charAt?_eq_some_iff.mp hc
    have hone : takeBytes 1 (c :: back) = [c] := by
      have := c.utf8Size_pos
      rw [takeBytes_cons (by decide), Nat.sub_eq_zero_of_le this, takeBytes_zero]
    rw [hchars, takeBytes_append, takeBytes_byteLength, hone, List.count_append,
      List.count_singleton]
    simp
  | none =>
    obtain ⟨more, hmore⟩ := takeBytes_prefix_of_le (Nat.le_succ n) s.chars
    cases more with
    | nil => simp [← hmore]
    | cons d more =>
      -- a character that only the longer cut takes starts at the byte
      have hlt := byteLength_lt_of_takeBytes hmore.symm
      have hsplit : s.chars = takeBytes n s.chars ++ d :: (more ++ dropBytes (n + 1) s.chars) := by
        rw [← List.cons_append, ← List.append_assoc, hmore, takeBytes_append_dropBytes]
      have hrest : dropBytes n s.chars ≠ [] := by
        intro hnil
        have hwhole := takeBytes_append_dropBytes n s.chars
        rw [hnil, List.append_nil] at hwhole
        have hlength := congrArg List.length hsplit
        rw [hwhole, List.length_append, List.length_cons] at hlength
        omega
      have hle := le_byteLength_takeBytes hrest
      rw [charAt?_eq_some_iff.mpr ⟨_, _, hsplit, by omega⟩] at hc
      cases hc

/-- The two texts differ in their comments only, and in these not in the places of line feeds. -/
structure SameCode (s t : SourceText) : Prop where
  rules : t.rules = s.rules
  length : t.length = s.length
  comments : t.comments = s.comments
  lineFeeds : ∀ n, t.charAt? n = some '\n' ↔ s.charAt? n = some '\n'
  code : ∀ n, s.inComment n = false → t.charAt? n = s.charAt? n

instance (s t : SourceText) : Decidable (s.SameCode t) :=
  decidable_of_iff (t.rules = s.rules ∧ t.length = s.length ∧ t.comments = s.comments ∧
      (∀ n < s.length, t.charAt? n = some '\n' ↔ s.charAt? n = some '\n') ∧
      ∀ n < s.length, s.inComment n = false → t.charAt? n = s.charAt? n) <| by
    have hbeyond : t.length = s.length → ∀ n, ¬ n < s.length →
        s.charAt? n = none ∧ t.charAt? n = none := fun hlength n hn =>
      ⟨charAt?_of_length_le (Nat.le_of_not_lt hn),
        charAt?_of_length_le (hlength ▸ Nat.le_of_not_lt hn)⟩
    constructor
    · rintro ⟨hrules, hlength, hcomments, hlines, hcode⟩
      refine ⟨hrules, hlength, hcomments, fun n => ?_, fun n hfree => ?_⟩
      · by_cases hn : n < s.length
        · exact hlines n hn
        · rw [(hbeyond hlength n hn).1, (hbeyond hlength n hn).2]
      · by_cases hn : n < s.length
        · exact hcode n hn hfree
        · rw [(hbeyond hlength n hn).1, (hbeyond hlength n hn).2]
    · rintro ⟨hrules, hlength, hcomments, hlines, hcode⟩
      exact ⟨hrules, hlength, hcomments, fun n _ => hlines n, fun n _ => hcode n⟩

theorem SameCode.inComment (h : s.SameCode t) (n : Nat) : t.inComment n = s.inComment n := by
  rw [SourceText.inComment, commentEnd?, h.comments]
  rfl

theorem SameCode.lineOf (h : s.SameCode t) (n : Nat) : t.lineOf n = s.lineOf n := by
  induction n with
  | zero => simp [SourceText.lineOf, spotAt, line_spotAt, takeBytes_zero]
  | succ n ih =>
    rw [lineOf_succ, lineOf_succ, ih]
    exact congrArg _ (if_congr (h.lineFeeds n) rfl rfl)

end SourceText

section Alike

variable {rules : LexicalRules} {covered : Nat → Bool} {offset : Nat} {cs ds : List Char}

/-- Two texts from a byte on, read side by side: both go on with the same character, which `covered`
leaves free, or with a comment each, both of the same size. -/
inductive Alike (rules : LexicalRules) (covered : Nat → Bool) : Nat → List Char → List Char → Prop
  | done (offset : Nat) : Alike rules covered offset [] []
  | code {offset : Nat} {cs ds : List Char} (c : Char) (free : covered offset = false)
      (rest : Alike rules covered (offset + c.utf8Size) cs ds) :
      Alike rules covered offset (c :: cs) (c :: ds)
  | comment {offset : Nat} {inner inner' cs ds : List Char}
      (hidden : ∀ n, offset ≤ n → n < offset + byteLength inner → covered n = true)
      (size : byteLength inner' = byteLength inner)
      (opens : rules.Opens (inner ++ cs)) (opens' : rules.Opens (inner' ++ ds))
      (closes : ("*/".toList <:+ inner ∧ "*/".toList <:+ inner') ∨ (cs = [] ∧ ds = []) ∨
        (cs.head? = some '\n' ∧ ds.head? = some '\n'))
      (rest : Alike rules covered (offset + byteLength inner) cs ds) :
      Alike rules covered offset (inner ++ cs) (inner' ++ ds)

theorem Alike.symm (h : Alike rules covered offset cs ds) : Alike rules covered offset ds cs := by
  induction h with
  | done offset => exact .done offset
  | code c free _ ih => exact .code c free ih
  | comment hidden size opens opens' closes _ ih =>
    refine .comment (size ▸ hidden) size.symm opens' opens ?_ (size ▸ ih)
    exact closes.imp And.symm (Or.imp And.symm And.symm)

namespace SourceText

variable {s t : SourceText}

/-- Of two comments one lies behind the other. -/
theorem eq_or_le_of_mem_comments {a b : Span} (ha : a ∈ s.comments) (hb : b ∈ s.comments) :
    a = b ∨ a.stop ≤ b.start ∨ b.stop ≤ a.start := by
  by_cases hab : a = b
  · exact Or.inl hab
  · have : Std.Symm fun x y : Span => x.stop ≤ y.start ∨ y.stop ≤ x.start := ⟨fun _ _ => Or.symm⟩
    have hpairs : s.comments.Pairwise fun x y => x.stop ≤ y.start ∨ y.stop ≤ x.start :=
      s.pairwise_comments.imp Or.inl
    exact Or.inr (hpairs.forall ha hb hab)

/-- No comment goes on from before the byte. -/
def FreshAt (s : SourceText) (n : Nat) : Prop :=
  ∀ span ∈ s.comments, ¬ (span.start < n ∧ n < span.stop)

theorem FreshAt.code {front back : List Char} {c : Char} (hchars : s.chars = front ++ c :: back)
    (hfree : s.inComment (byteLength front) = false) :
    s.FreshAt (byteLength front + c.utf8Size) := by
  intro span hspan hwithin
  obtain ⟨front', inner, back', hcut, hstart, -⟩ := exists_cut_of_mem_comments hspan
  have hfree : ¬ (span.start ≤ byteLength front ∧ byteLength front < span.stop) := by
    intro hcovers
    rw [inComment_iff.mpr ⟨span, hspan, by simpa [Span.covers] using hcovers⟩] at hfree
    cases hfree
  by_cases hlt : byteLength front < byteLength front'
  · have hle := add_utf8Size_le_of_lt (hchars.symm.trans hcut) hlt
    omega
  · omega

theorem FreshAt.comment {span : Span} (hspan : span ∈ s.comments) : s.FreshAt span.stop := by
  intro other hother hwithin
  have hlt := start_lt_stop hspan
  rcases eq_or_le_of_mem_comments hspan hother with rfl | h | h
  all_goals omega

/-- Outside comments the other text goes on with the same character. -/
theorem SameCode.exists_code (h : s.SameCode t) {front front' : List Char} {c : Char}
    (hs : s.chars = front ++ c :: cs) (ht : t.chars = front' ++ ds)
    (hfront : byteLength front' = byteLength front)
    (hfree : s.inComment (byteLength front) = false) : ∃ rest, ds = c :: rest := by
  have hchar := h.code _ hfree
  rw [charAt?_of_chars hs, ← hfront, charAt?_of_chars ht] at hchar
  exact List.head?_eq_some_iff.mp hchar

/-- A comment that starts at a byte of both texts: it takes as many bytes of the one as of the other,
and both texts go on alike behind it, with a line feed or at their end. -/
structure BothComment (rules : LexicalRules) (span : Span) (inner back inner' back' : List Char) :
    Prop where
  stop : span.stop = span.start + byteLength inner
  size : byteLength inner' = byteLength inner
  opens : rules.Opens (inner ++ back)
  opens' : rules.Opens (inner' ++ back')
  closes : rules.Closes inner back
  closes' : rules.Closes inner' back'
  ended : back = [] ↔ back' = []
  newline : back.head? = some '\n' ↔ back'.head? = some '\n'

/-- Within a comment that starts here, the other text has a comment too. -/
theorem SameCode.exists_comment (h : s.SameCode t) {front front' : List Char}
    (hs : s.chars = front ++ cs) (ht : t.chars = front' ++ ds)
    (hfront : byteLength front' = byteLength front) {span : Span} (hspan : span ∈ s.comments)
    (hstart : span.start = byteLength front) :
    ∃ inner back inner' back', cs = inner ++ back ∧ ds = inner' ++ back' ∧
      BothComment s.rules span inner back inner' back' := by
  obtain ⟨lead, inner, back, hcut, hlead, hstop, hopens, hcloses⟩ :=
    exists_cut_of_mem_comments hspan
  obtain ⟨rfl, rfl⟩ := append_inj_byteLength (hs.symm.trans hcut)
    (hstart.symm.trans hlead.symm)
  obtain ⟨lead', inner', back', hcut', hlead', hstop', hopens', hcloses'⟩ :=
    exists_cut_of_mem_comments (h.comments ▸ hspan)
  obtain ⟨rfl, rfl⟩ := append_inj_byteLength (ht.symm.trans hcut')
    (hfront.trans (hlead.trans hlead'.symm))
  rw [h.rules] at hopens' hcloses'
  have hsize : byteLength inner' = byteLength inner := by omega
  refine ⟨inner, back, inner', back', rfl, rfl, hstop, hsize, hopens, hopens', hcloses, hcloses',
    ?_, ?_⟩
  · have hlength := h.length
    simp only [SourceText.length, hs, ht, byteLength_append] at hlength
    rw [← byteLength_eq_zero_iff, ← byteLength_eq_zero_iff]
    omega
  · have hends : byteLength (front' ++ inner') = byteLength (front ++ inner) := by
      rw [byteLength_append, byteLength_append, hfront, hsize]
    have hfeed := h.lineFeeds (byteLength (front ++ inner))
    rw [charAt?_of_chars (hs.trans (List.append_assoc front inner back).symm), ← hends,
      charAt?_of_chars (ht.trans (List.append_assoc front' inner' back').symm)] at hfeed
    exact hfeed.symm

/-- Both comments end in the same way. -/
theorem BothComment.closes_or {rules : LexicalRules} {span : Span}
    {inner back inner' back' : List Char} (h : BothComment rules span inner back inner' back') :
    ("*/".toList <:+ inner ∧ "*/".toList <:+ inner') ∨ (back = [] ∧ back' = []) ∨
      (back.head? = some '\n' ∧ back'.head? = some '\n') := by
  rcases h.closes with hback | hstar | ⟨-, hhead⟩
  · exact Or.inr (Or.inl ⟨hback, h.ended.mp hback⟩)
  · rcases h.closes' with hback | hstar' | ⟨-, hhead⟩
    · exact Or.inr (Or.inl ⟨h.ended.mpr hback, hback⟩)
    · exact Or.inl ⟨hstar, hstar'⟩
    · exact Or.inr (Or.inr ⟨h.newline.mpr hhead, hhead⟩)
  · exact Or.inr (Or.inr ⟨hhead, h.newline.mp hhead⟩)

/-- Two such texts are alike from a byte on where no comment goes on. -/
theorem SameCode.alike_of_freshAt (h : s.SameCode t) {front front' : List Char}
    (hs : s.chars = front ++ cs) (ht : t.chars = front' ++ ds)
    (hfront : byteLength front' = byteLength front) (hfresh : s.FreshAt (byteLength front)) :
    Alike s.rules s.inComment (byteLength front) cs ds := by
  induction hn : cs.length using Nat.strongRecOn generalizing front front' cs ds with
  | ind n ih =>
    subst hn
    cases hcovered : s.inComment (byteLength front) with
    | false =>
      cases cs with
      | nil =>
        have hlength := h.length
        simp only [SourceText.length, hs, ht, byteLength_append, byteLength_nil] at hlength
        obtain rfl : ds = [] := byteLength_eq_zero_iff.mp (by omega)
        exact .done _
      | cons c cs =>
        obtain ⟨rest, rfl⟩ := h.exists_code hs ht hfront hcovered
        have hsize : ∀ lead, byteLength (lead ++ [c]) = byteLength lead + c.utf8Size := by
          intro lead
          simp
        have hlater : Alike s.rules s.inComment (byteLength (front ++ [c])) cs rest := by
          refine ih cs.length (Nat.lt_succ_self _) (hs.trans (List.append_cons front c cs))
            (ht.trans (List.append_cons front' c rest)) ?_ ?_ rfl
          · rw [hsize, hsize, hfront]
          · rw [hsize]
            exact .code hs hcovered
        exact .code c hcovered (hsize front ▸ hlater)
    | true =>
      obtain ⟨span, hspan, hcovers⟩ := inComment_iff.mp hcovered
      simp only [Span.covers, Bool.and_eq_true, decide_eq_true_eq] at hcovers
      have hstart : span.start = byteLength front := by
        have := hfresh span hspan
        omega
      obtain ⟨inner, back, inner', back', rfl, rfl, hboth⟩ :=
        h.exists_comment hs ht hfront hspan hstart
      have hstop := hboth.stop
      have hends : byteLength (front ++ inner) = span.stop := by
        rw [byteLength_append, hstop, hstart]
      have hlater : Alike s.rules s.inComment (byteLength (front ++ inner)) back back' := by
        refine ih back.length ?_ (hs.trans (List.append_assoc ..).symm)
          (ht.trans (List.append_assoc ..).symm) ?_ (hends ▸ .comment hspan) rfl
        · have hne : inner ≠ [] := by
            rintro rfl
            rw [byteLength_nil] at hstop
            omega
          have := List.length_pos_iff.mpr hne
          rw [List.length_append]
          omega
        · rw [byteLength_append, byteLength_append, hfront, hboth.size]
      refine .comment (fun n hle hlt => inComment_iff.mpr ⟨span, hspan, ?_⟩) hboth.size hboth.opens
        hboth.opens' hboth.closes_or (byteLength_append front inner ▸ hlater)
      simp only [Span.covers, Bool.and_eq_true, decide_eq_true_eq]
      omega

/-- Texts that differ in their comments only are alike. -/
theorem SameCode.alike (h : s.SameCode t) : Alike s.rules s.inComment 0 s.chars t.chars :=
  h.alike_of_freshAt (List.nil_append s.chars).symm (List.nil_append t.chars).symm rfl fun _ _ hwithin =>
    absurd hwithin.1 (Nat.not_lt_zero _)

end SourceText

end Alike

namespace LexicalRules

variable {rules : LexicalRules}

/-- The characters that a comment starts with. -/
def heads (rules : LexicalRules) : List Char :=
  rules.openings.filterMap List.head?

/-- No comment starts or ends within the text, wherever it stands. -/
structure Apart (rules : LexicalRules) (text : List Char) : Prop where
  ne_nil : text ≠ []
  newline : '\n' ∉ text
  opens : ∀ last ∈ text.tails, last ≠ [] → ∀ mark ∈ rules.openings, ¬ last <+: mark ∧ ¬ mark <+: last
  closes : ∀ first ∈ text.inits, first ≠ [] → ¬ first <:+ "*/".toList ∧ ¬ "*/".toList <:+ first

instance (text : List Char) : Decidable (rules.Apart text) :=
  decidable_of_iff (text ≠ [] ∧ '\n' ∉ text ∧
      (∀ last ∈ text.tails, last ≠ [] →
        ∀ mark ∈ rules.openings, ¬ last <+: mark ∧ ¬ mark <+: last) ∧
      ∀ first ∈ text.inits, first ≠ [] → ¬ first <:+ "*/".toList ∧ ¬ "*/".toList <:+ first)
    ⟨fun ⟨hne, hline, hopens, hcloses⟩ => ⟨hne, hline, hopens, hcloses⟩,
      fun ⟨hne, hline, hopens, hcloses⟩ => ⟨hne, hline, hopens, hcloses⟩⟩

theorem Apart.not_prefix {text last rest : List Char} (h : rules.Apart text) (hlast : last <:+ text)
    (hne : last ≠ []) (hopens : rules.Opens rest) : ¬ last <+: rest := by
  obtain ⟨mark, hmark, hstarts⟩ := hopens
  obtain ⟨hnot, hnot'⟩ := h.opens last ((List.mem_tails last text).mpr hlast) hne mark hmark
  exact fun hrest => (List.prefix_or_prefix_of_prefix hrest hstarts).elim hnot hnot'

theorem Apart.not_suffix {text first rest : List Char} (h : rules.Apart text) (hfirst : first <+: text)
    (hne : first ≠ []) (hcloses : "*/".toList <:+ rest) : ¬ first <:+ rest := by
  obtain ⟨hnot, hnot'⟩ := h.closes first ((List.mem_inits first text).mpr hfirst) hne
  exact fun hrest => (List.suffix_or_suffix_of_suffix hrest hcloses).elim hnot hnot'

theorem Opens.exists_head (hrules : rules.Usual) {text : List Char} (h : rules.Opens text) :
    ∃ c ∈ rules.heads, text.head? = some c := by
  obtain ⟨mark, hmark, rest, rfl⟩ := h
  have hne : mark ≠ [] := by
    rcases List.mem_cons.mp hmark with rfl | hmark
    · decide
    · exact (hrules.marks mark hmark).1
  obtain ⟨c, more, rfl⟩ := List.exists_cons_of_ne_nil hne
  exact ⟨c, List.mem_filterMap.mpr ⟨c :: more, hmark, rfl⟩, rfl⟩

end LexicalRules

section Occurrences

variable {rules : LexicalRules} {covered : Nat → Bool} {offset : Nat} {cs ds name : List Char}

/-- Two alike texts share their code up to the first comment. -/
theorem Alike.forked (hrules : rules.Usual) (h : Alike rules covered offset cs ds) :
    Forked rules.heads cs ds := by
  induction h with
  | done offset => exact .nil _
  | code c free _ ih => exact ih.cons c
  | comment hidden size opens opens' closes _ _ =>
    exact .of_head? (opens.exists_head hrules) (opens'.exists_head hrules)

/-- A text that no comment cuts is read as code in both of two alike texts. -/
theorem Alike.exists_of_startsWith (hname : rules.Apart name) {part : List Char} (hpart : part <:+ name)
    (h : Alike rules covered offset cs ds) (hstarts : part <+: cs) :
    ∃ cs' ds', cs = part ++ cs' ∧ ds = part ++ ds' ∧
      Alike rules covered (offset + byteLength part) cs' ds' := by
  induction part generalizing offset cs ds with
  | nil => exact ⟨cs, ds, rfl, rfl, h⟩
  | cons a part ih =>
    cases h with
    | done offset => simp at hstarts
    | code c free rest =>
      obtain ⟨rfl, hmore⟩ := List.cons_prefix_cons.mp hstarts
      obtain ⟨cs', ds', rfl, rfl, hrest⟩ :=
        ih ((List.suffix_cons a part).trans hpart) rest hmore
      rw [Nat.add_assoc, ← byteLength_cons] at hrest
      exact ⟨cs', ds', rfl, rfl, hrest⟩
    | comment hidden size opens opens' closes rest =>
      exact absurd hstarts (hname.not_prefix hpart (List.cons_ne_nil a part) opens)

theorem Alike.isPrefixOf_eq (hname : rules.Apart name) (h : Alike rules covered offset cs ds) :
    name.isPrefixOf ds = name.isPrefixOf cs := by
  rw [Bool.eq_iff_iff, List.isPrefixOf_iff_prefix, List.isPrefixOf_iff_prefix]
  constructor
  · intro hstarts
    obtain ⟨-, rest, -, rfl, -⟩ := h.symm.exists_of_startsWith hname (List.suffix_refl _) hstarts
    exact ⟨rest, rfl⟩
  · intro hstarts
    obtain ⟨-, rest, -, rfl, -⟩ := h.exists_of_startsWith hname (List.suffix_refl _) hstarts
    exact ⟨rest, rfl⟩

/-- The same occurrence of a name in two texts: at the same byte, the texts tied before it and alike
behind it. -/
structure Text.Occurrence.Same (rules : LexicalRules) (covered : Nat → Bool) (text text' name : List Char)
    (o o' : Occurrence) : Prop where
  offset : o'.offset = o.offset
  cut : ∃ front front', text = front ++ (name ++ o.after) ∧ text' = front' ++ (name ++ o'.after) ∧
    byteLength front = o.offset ∧ byteLength front' = o.offset ∧
    o.before = front.getLast? ∧ o'.before = front'.getLast? ∧ Tied ['/', '\n'] front front'
  after : Alike rules covered (o.offset + byteLength name) o.after o'.after

/-- A name that no comment cuts does not stand across the end of a comment. -/
theorem LexicalRules.Apart.notAcross (hname : rules.Apart name) {front back : List Char}
    (hends : "*/".toList <:+ front ∨ back = [] ∨ back.head? = some '\n') :
    NotAcross name front back := by
  intro a b hsplit ha hb hsuffix hback
  rcases hends with hstar | rfl | hline
  · exact hname.not_suffix (hsplit ▸ List.prefix_append a b) ha hstar hsuffix
  · exact hb (List.prefix_nil.mp hback)
  · obtain ⟨d, more, rfl⟩ := List.exists_cons_of_ne_nil hb
    obtain ⟨back, rfl⟩ := List.head?_eq_some_iff.mp hline
    obtain ⟨rfl, -⟩ := List.cons_prefix_cons.mp hback
    exact hname.newline (hsplit ▸ List.mem_append_right a List.mem_cons_self)

/-- Where a comment is read, the occurrences that count are those behind it. -/
theorem filter_occurrencesFrom_comment {inner : List Char}
    (hhidden : ∀ n, offset ≤ n → n < offset + byteLength inner → covered n = true)
    (hborder : NotAcross name inner cs) (before : Option Char) :
    (Text.occurrencesFrom name 0 before offset (inner ++ cs)).filter (!covered ·.offset) =
      (Text.occurrencesFrom name 0 (inner.getLast?.or before) (offset + byteLength inner) cs).filter
        (!covered ·.offset) := by
  obtain ⟨first, hfirst, hrange⟩ :=
    occurrencesFrom_append hborder (Nat.zero_le inner.length) before offset
  have hnone : first.filter (!covered ·.offset) = [] := by
    rw [List.filter_eq_nil_iff]
    intro o ho
    simp [hhidden o.offset (hrange o ho).1 (hrange o ho).2]
  rw [hfirst, List.filter_append, hnone, List.nil_append]

/-- The texts in front are tied, unless what follows is the end of the text or of a line. -/
def TiedBefore (cs front front' : List Char) : Prop :=
  Tied ['/', '\n'] front front' ∨ cs = [] ∨ cs.head? = some '\n'

theorem TiedBefore.concat {c : Char} {front front' : List Char}
    (h : TiedBefore (c :: cs) front front') :
    Tied ['/', '\n'] (front ++ [c]) (front' ++ [c]) := by
  rcases h with htied | hnil | hhead
  · exact htied.append [c]
  · cases hnil
  · obtain rfl : c = '\n' := Option.some.inj hhead
    exact .of_getLast? (by simp) List.getLast?_concat List.getLast?_concat

/-- Before a name the texts are tied. -/
theorem TiedBefore.tied (hname : rules.Apart name) {front front' : List Char}
    (h : TiedBefore cs front front') (hstarts : name <+: cs) : Tied ['/', '\n'] front front' := by
  obtain ⟨a, tail, rfl⟩ := List.exists_cons_of_ne_nil hname.ne_nil
  obtain ⟨rest, rfl⟩ := hstarts
  rcases h with htied | hnil | hhead
  · exact htied
  · cases hnil
  · obtain rfl : a = '\n' := Option.some.inj hhead
    exact absurd List.mem_cons_self hname.newline

/-- Behind a comment that ends alike in both texts they are tied, unless the text or the line ends. -/
theorem tiedBefore_comment {inner inner' : List Char} (front front' : List Char)
    (closes : ("*/".toList <:+ inner ∧ "*/".toList <:+ inner') ∨ (cs = [] ∧ ds = []) ∨
      (cs.head? = some '\n' ∧ ds.head? = some '\n')) :
    TiedBefore cs (front ++ inner) (front' ++ inner') := by
  refine closes.imp (fun hstar => ?_) (Or.imp And.left And.left)
  have hslash : ∀ {front inner : List Char}, "*/".toList <:+ inner →
      (front ++ inner).getLast? = some '/' := by
    rintro front inner ⟨lead, rfl⟩
    simp [List.getLast?_append]
  exact .of_getLast? List.mem_cons_self (hslash hstar.1) (hslash hstar.2)

theorem Alike.occurrencesFrom (hname : rules.Apart name) {text text' front front' : List Char}
    (h : Alike rules covered offset cs ds) (htext : text = front ++ cs) (htext' : text' = front' ++ ds)
    (hoffset : byteLength front = offset) (hoffset' : byteLength front' = offset)
    (htied : TiedBefore cs front front') {pending : List Char} (hpending : pending <:+ name)
    (hstarts : pending <+: cs) :
    List.Forall₂ (Occurrence.Same rules covered text text' name)
      ((Text.occurrencesFrom name pending.length front.getLast? offset cs).filter
        (!covered ·.offset))
      ((Text.occurrencesFrom name pending.length front'.getLast? offset ds).filter
        (!covered ·.offset)) := by
  induction h generalizing front front' pending with
  | done offset =>
    have hempty : name.isEmpty = false := by simpa using hname.ne_nil
    cases pending <;> simp [Text.occurrencesFrom, hempty]
  | @code offset cs ds c free rest ih =>
    have hsize : ∀ {front : List Char}, byteLength front = offset →
        byteLength (front ++ [c]) = offset + c.utf8Size := by
      rintro front rfl
      simp
    have hlater := @ih (front ++ [c]) (front' ++ [c]) (by rw [htext, List.append_cons])
      (by rw [htext', List.append_cons]) (hsize hoffset) (hsize hoffset') (Or.inl htied.concat)
    simp only [List.getLast?_concat] at hlater
    cases pending with
    | cons a pending =>
      exact hlater ((List.suffix_cons a pending).trans hpending)
        (List.cons_prefix_cons.mp hstarts).2
    | nil =>
      have hsame := (Alike.code c free rest).isPrefixOf_eq hname
      rw [List.length_nil, Text.occurrencesFrom, Text.occurrencesFrom, hsame]
      split
      · next hfound =>
        have hfound := List.isPrefixOf_iff_prefix.mp hfound
        obtain ⟨cs', ds', hcs, hds, hafter⟩ := (Alike.code c free rest).exists_of_startsWith hname
          (List.suffix_refl _) hfound
        have htied := htied.tied hname hfound
        obtain ⟨a, tail, rfl⟩ := List.exists_cons_of_ne_nil hname.ne_nil
        obtain ⟨rfl, hrest⟩ := List.cons.inj hcs
        rw [hcs, hds, List.drop_left, List.drop_left, List.filter_cons_of_pos (by simp [free]),
          List.filter_cons_of_pos (by simp [free])]
        refine .cons ⟨rfl, ⟨front, front', ?_, ?_, hoffset, hoffset', rfl, rfl, htied⟩, hafter⟩ ?_
        · rw [htext, hcs]
        · rw [htext', hds]
        · exact hlater (List.suffix_cons c tail) ⟨cs', hrest.symm⟩
      · exact hlater List.nil_suffix List.nil_prefix
  | @comment offset inner inner' cs ds hidden size opens opens' closes rest ih =>
    -- a comment starts within no occurrence, so none is under way here
    have hnil : pending = [] := by
      by_contra hne
      exact hname.not_prefix hpending hne opens hstarts
    subst hnil
    have hborder : NotAcross name inner cs :=
      hname.notAcross (closes.imp And.left (Or.imp And.left And.left))
    have hborder' : NotAcross name inner' ds :=
      hname.notAcross (closes.imp And.right (Or.imp And.right And.right))
    rw [List.length_nil, filter_occurrencesFrom_comment hidden hborder,
      filter_occurrencesFrom_comment (size ▸ hidden) hborder', size, ← List.getLast?_append,
      ← List.getLast?_append]
    exact ih (by rw [htext, List.append_assoc]) (by rw [htext', List.append_assoc])
      (by rw [byteLength_append, hoffset]) (by rw [byteLength_append, hoffset', size])
      (tiedBefore_comment front front' closes) List.nil_suffix List.nil_prefix

/-- Outside comments a name that no comment cuts occurs at the same places in texts that differ in their
comments only. -/
theorem SourceText.SameCode.occurrences {s t : SourceText} (h : s.SameCode t)
    (hname : s.rules.Apart name) :
    List.Forall₂ (Occurrence.Same s.rules s.inComment s.chars t.chars name)
      ((Text.occurrences name s.chars).filter (!s.inComment ·.offset))
      ((Text.occurrences name t.chars).filter (!s.inComment ·.offset)) :=
  h.alike.occurrencesFrom hname (List.nil_append s.chars).symm (List.nil_append t.chars).symm rfl rfl
    (Or.inl (.nil _)) List.nil_suffix List.nil_prefix

end Occurrences

end Concordance
