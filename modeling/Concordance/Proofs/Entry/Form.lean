import Concordance.Entry.Basic
import Concordance.Proofs.Pattern.Accepts
import Concordance.Proofs.Text.Number
import Concordance.Proofs.Text.Occurrence
import Concordance.Proofs.Text.Trim

/-!
The form of an entry, said without a search.

An entry is a path on one line, a colon, numerals with commas between them, and a kind in parentheses
if there is one. No colon stands behind the numerals, so the path reaches up to the last colon, whatever
it holds, and a text is the form of one entry at most. Main statement: `parse?_eq_some_iff`, what is
read from a text is what the trimmed text spells.
-/

namespace Concordance.Entry

open Text Pattern

section Form

/-- Decimal digits of any script, at least one. -/
structure Numeral (ds : List Char) : Prop where
  ne_nil : ds ≠ []
  digits : ∀ c ∈ ds, isDecimalDigit c = true

/-- Numerals with commas between them; white space may stand around a comma. -/
inductive Numerals : List Char → Prop where
  | one {ds : List Char} : Numeral ds → Numerals ds
  | append {front gap gap' ds : List Char} : Numerals front → AllBlank gap → AllBlank gap' →
      Numeral ds → Numerals (front ++ (gap ++ ',' :: (gap' ++ ds)))

/-- A letter of a kind. -/
def isKindChar (c : Char) : Bool :=
  c.isAlpha || c == '_'

/-- Nothing, or white space and a kind in parentheses. -/
inductive KindText : List Char → Option (List Char) → Prop where
  | none : KindText [] none
  | some {gap name : List Char} : gap ≠ [] → AllBlank gap → name ≠ [] →
      (∀ c ∈ name, isKindChar c = true) → KindText (gap ++ '(' :: (name ++ [')'])) (some name)

/-- The numbers that numerals write. One that is no 64-bit number is left out. -/
def numbers (numerals : List Char) : List Nat :=
  (numerals.splitOn ',').filterMap fun l => readNumber? (trim l)

/-- The text is the form of the entry. -/
inductive Spells : List Char → Entry → Prop where
  | intro {path numerals behind : List Char} {kind : Option (List Char)} : path ≠ [] →
      '\n' ∉ path → Numerals numerals → KindText behind kind →
      Spells (path ++ ':' :: (numerals ++ behind)) ⟨path, numbers numerals, kind⟩

end Form

section Characters

variable {c : Char} {text behind : List Char} {kind : Option (List Char)}

theorem isDecimalDigit_of_isBlank (h : isBlank c = true) : isDecimalDigit c = false := by
  by_cases hascii : c.toNat < 0x80
  · have hall : ∀ n < 0x80, inRanges blankRanges n = true →
        isDecimalDigit (Char.ofNat n) = false := by
      decide +kernel
    rw [← Char.ofNat_toNat c]
    exact hall c.toNat hascii h
  · rw [isDecimalDigit, if_neg hascii, inRanges_of_isBlank (by decide) h]

theorem isBlank_of_isDecimalDigit (h : isDecimalDigit c = true) : isBlank c = false := by
  rw [Bool.eq_false_iff]
  intro hblank
  rw [isDecimalDigit_of_isBlank hblank] at h
  cases h

theorem Numerals.mem (h : Numerals text) (hc : c ∈ text) :
    isDecimalDigit c = true ∨ isBlank c = true ∨ c = ',' := by
  induction h with
  | one hds => exact Or.inl (hds.digits c hc)
  | append _ hgap hgap' hds ih =>
    simp only [List.mem_append, List.mem_cons] at hc
    rcases hc with hc | hc | rfl | hc | hc
    · exact ih hc
    · exact Or.inr (Or.inl (hgap c hc))
    · exact Or.inr (Or.inr rfl)
    · exact Or.inr (Or.inl (hgap' c hc))
    · exact Or.inl (hds.digits c hc)

/-- A character of no class that numerals are made of stands in none. -/
theorem Numerals.notMem (h : Numerals text) (hdigit : isDecimalDigit c = false)
    (hblank : isBlank c = false) (hcomma : c ≠ ',') : c ∉ text := by
  intro hc
  rcases h.mem hc with hc | hc | hc
  · rw [hdigit] at hc
    cases hc
  · rw [hblank] at hc
    cases hc
  · exact hcomma hc

/-- Numerals end with a digit. -/
theorem Numerals.trimEnd (h : Numerals text) : trimEnd text = text := by
  have hlast : ∃ front d, text = front ++ [d] ∧ isDecimalDigit d = true := by
    have hnumeral : ∀ {ds : List Char}, Numeral ds →
        ∃ front d, ds = front ++ [d] ∧ isDecimalDigit d = true := by
      intro ds hds
      exact ⟨ds.dropLast, ds.getLast hds.ne_nil, (List.dropLast_append_getLast hds.ne_nil).symm,
        hds.digits _ (List.getLast_mem hds.ne_nil)⟩
    cases h with
    | one hds => exact hnumeral hds
    | @append front gap gap' ds _ _ _ hds =>
      obtain ⟨before, d, rfl, hd⟩ := hnumeral hds
      exact ⟨front ++ (gap ++ ',' :: (gap' ++ before)), d, by simp, hd⟩
  obtain ⟨front, d, rfl, hd⟩ := hlast
  exact trimEnd_concat front (isBlank_of_isDecimalDigit hd)

/-- Where white space or nothing starts a text, no digit does. -/
theorem KindText.head?_not_digit (h : KindText behind kind) :
    ∀ a ∈ behind.head?, isDecimalDigit a = false := by
  cases h with
  | none => exact fun a ha => absurd ha (by simp)
  | @some gap name hne hgap _ _ =>
    obtain ⟨b, gap, rfl⟩ := List.exists_cons_of_ne_nil hne
    exact head?_cons_not (isDecimalDigit_of_isBlank (hgap b List.mem_cons_self))

/-- Neither does white space end a text that ends with a kind. -/
theorem KindText.trimEnd_append {front : List Char} (h : KindText behind kind)
    (hfront : Text.trimEnd front = front) : Text.trimEnd (front ++ behind) = front ++ behind := by
  cases h with
  | none => rwa [List.append_nil]
  | @some gap name _ _ _ _ =>
    have hclose := trimEnd_concat (front ++ (gap ++ '(' :: name)) (by decide : isBlank ')' = false)
    simpa using hclose

theorem KindText.colon_notMem (h : KindText behind kind) : ':' ∉ behind := by
  cases h with
  | none => exact List.not_mem_nil
  | some _ hgap _ hname =>
    simp only [List.mem_append, List.mem_cons, List.not_mem_nil, or_false, not_or]
    exact ⟨fun hc => absurd (hgap _ hc) (by decide), by decide,
      fun hc => absurd (hname _ hc) (by decide), by decide⟩

/-- No colon stands behind the one after the path. -/
theorem colon_notMem_behind {numerals : List Char} (hnumerals : Numerals numerals)
    (hkind : KindText behind kind) : ':' ∉ numerals ++ behind := by
  rw [List.mem_append, not_or]
  exact ⟨hnumerals.notMem (by decide) (by decide) (by decide), hkind.colon_notMem⟩

end Characters

section Unique

variable {numerals numerals' behind behind' : List Char} {kind kind' : Option (List Char)}

theorem passes_open_of_allBlank {gap : List Char} (hgap : AllBlank gap) :
    ∀ c ∈ gap, (c != '(') = true :=
  fun c hc => bne_iff_ne.mpr fun heq => absurd (heq ▸ hgap c hc) (by decide)

/-- The numerals reach up to the white space before the parenthesis, if there is one. -/
theorem numerals_eq (hnumerals : Numerals numerals) (hkind : KindText behind kind) :
    numerals = trimEnd ((numerals ++ behind).takeWhile (· != '(')) := by
  have hopen : '(' ∉ numerals := hnumerals.notMem (by decide) (by decide) (by decide)
  have hpass : ∀ c ∈ numerals, (c != '(') = true := fun c hc =>
    bne_iff_ne.mpr fun heq => hopen (heq ▸ hc)
  rw [List.takeWhile_append_of_pos hpass]
  cases hkind with
  | none => rw [List.takeWhile_nil, List.append_nil, hnumerals.trimEnd]
  | @some gap name hne hgap _ _ =>
    rw [List.takeWhile_append_of_pos (passes_open_of_allBlank hgap),
      List.takeWhile_cons_of_neg (by simp), List.append_nil, trimEnd_append_blank hgap,
      hnumerals.trimEnd]

theorem KindText.unique (h : KindText behind kind) (h' : KindText behind kind') : kind = kind' := by
  have hafter : ∀ {gap name : List Char}, AllBlank gap →
      ((gap ++ '(' :: (name ++ [')'])).dropWhile (· != '(')) = '(' :: (name ++ [')']) := by
    intro gap name hgap
    rw [List.dropWhile_append_of_pos (passes_open_of_allBlank hgap),
      List.dropWhile_cons_of_neg (by simp)]
  generalize htext : behind = text at h'
  cases h with
  | none =>
    cases h' with
    | none => rfl
    | some => simp at htext
  | some _ hgap _ _ =>
    cases h' with
    | none => simp at htext
    | some _ hgap' _ _ =>
      have hrest := congrArg (List.dropWhile (· != '(')) htext
      rw [hafter hgap, hafter hgap', List.cons.injEq] at hrest
      rw [List.append_cancel_right hrest.2]

/-- A text is the form of one entry at most. -/
theorem Spells.unique {text : List Char} {e e' : Entry} (h : Spells text e) (h' : Spells text e') :
    e = e' := by
  generalize htext : text = text' at h'
  cases h with
  | @intro path numerals behind kind _ _ hnumerals hkind =>
  cases h' with
  | @intro path' numerals' behind' kind' _ _ hnumerals' hkind' =>
  obtain rfl := eq_of_cut_at_last htext (colon_notMem_behind hnumerals hkind)
    (colon_notMem_behind hnumerals' hkind')
  have hback : numerals ++ behind = numerals' ++ behind' := by simpa using htext
  have hsame : numerals = numerals' := by
    rw [numerals_eq hnumerals hkind, hback, ← numerals_eq hnumerals' hkind']
  subst hsame
  obtain rfl := List.append_cancel_left hback
  rw [hkind.unique hkind']

end Unique

section Reading

variable {c d : Cursor} {text : List Char}

/-- A comma and the numeral behind it. -/
def nextNumeral : Pattern :=
  all [blanks, literal ",", blanks, digits]

/-- Numerals with commas between them. -/
def numeralsForm : Pattern :=
  .seq digits (.many true nextNumeral)

/-- A kind in parentheses, as the group 3. -/
def kindForm : Pattern :=
  all [gap, literal "(", .group 3 (someOf isKindChar), literal ")"]

/-- A path, as few characters as possible. -/
def pathForm : Pattern :=
  .seq (.one (· != '\n')) (.many false (.one (· != '\n')))

theorem form_eq :
    form = all [.group 1 pathForm, literal ":", .group 2 numeralsForm, optional kindForm,
      .textEnd] := rfl

theorem exists_reads_someOf {f : Char → Bool} (h : d ∈ (someOf f).ends c) :
    ∃ taken, c.Reads taken d ∧ taken ≠ [] ∧ ∀ a ∈ taken, f a = true := by
  obtain ⟨taken, htaken⟩ := exists_reads_of_mem_ends h
  exact ⟨taken, htaken, advances_one.seq.ne_nil h htaken,
    ((readsOnly_one fun _ ha => ha).seq (readsOnly_run fun _ ha => ha)) h taken htaken⟩

theorem exists_reads_blanks (h : d ∈ blanks.ends c) : ∃ taken, c.Reads taken d ∧ AllBlank taken := by
  obtain ⟨taken, htaken⟩ := exists_reads_of_mem_ends h
  exact ⟨taken, htaken, readsOnly_run (fun _ ha => ha) h taken htaken⟩

theorem exists_reads_nextNumeral (h : d ∈ nextNumeral.ends c) :
    ∃ gap gap' ds, c.Reads (gap ++ ',' :: (gap' ++ ds)) d ∧ AllBlank gap ∧ AllBlank gap' ∧
      Numeral ds := by
  obtain ⟨c₁, h₁, h⟩ := mem_ends_seq.mp h
  obtain ⟨c₂, h₂, h⟩ := mem_ends_seq.mp h
  obtain ⟨c₃, h₃, h⟩ := mem_ends_seq.mp h
  obtain ⟨c₄, h₄, h⟩ := mem_ends_seq.mp h
  obtain rfl := List.mem_singleton.mp h
  obtain ⟨gap, hgap, hblank⟩ := exists_reads_blanks h₁
  obtain ⟨gap', hgap', hblank'⟩ := exists_reads_blanks h₃
  obtain ⟨ds, hds, hne, hdigits⟩ := exists_reads_someOf h₄
  exact ⟨gap, gap', ds, hgap.trans ((reads_literal h₂).trans (hgap'.trans hds)), hblank, hblank',
    hne, hdigits⟩

theorem exists_reads_numeralsForm (h : d ∈ numeralsForm.ends c) :
    ∃ numerals, c.Reads numerals d ∧ Numerals numerals := by
  obtain ⟨e, he, hd⟩ := mem_ends_seq.mp h
  obtain ⟨ds, hds, hne, hdigits⟩ := exists_reads_someOf he
  refine forall_mem_ends_many (Q := fun g => ∃ numerals, c.Reads numerals g ∧ Numerals numerals)
    ?_ ⟨ds, hds, .one ⟨hne, hdigits⟩⟩ d hd
  rintro e g ⟨front, hfront, hnumerals⟩ hg
  obtain ⟨gap, gap', ds, hnext, hgap, hgap', hds⟩ := exists_reads_nextNumeral hg
  exact ⟨_, hfront.trans hnext, hnumerals.append hgap hgap' hds⟩

/-- The text that a group stands for. -/
def groupText (text : List Char) (groups : List (Nat × Span)) (n : Nat) : Option (List Char) :=
  (groups.lookup n).map fun g => sliceBytes g.start g.stop text

/-- A group stands for what was read while it was open. -/
theorem sliceBytes_of_reads {pre taken : List Char} (hpre : (Cursor.start 0 text).Reads pre c)
    (htaken : c.Reads taken d) : sliceBytes c.offset d.offset text = taken := by
  have htext : text = pre ++ taken ++ d.rest := by
    rw [List.append_assoc, ← htaken.rest]
    exact hpre.rest
  have hoffset : c.offset = byteLength pre := by
    rw [hpre.offset, Cursor.start, Nat.zero_add]
  rw [htaken.offset, hoffset, htext]
  exact sliceBytes_append pre taken d.rest

theorem eq_of_mem_textEnd (h : d ∈ textEnd.ends c) : d = c ∧ c.rest = [] := by
  have hrest := rest_of_mem_textEnd h
  simp only [ends] at h
  split at h
  · obtain rfl := List.mem_singleton.mp h
    exact ⟨rfl, hrest⟩
  · cases h

/-- What is read behind the numerals is a kind or nothing. -/
theorem exists_reads_optional_kindForm {pre : List Char}
    (hpre : (Cursor.start 0 text).Reads pre c) (h : d ∈ (optional kindForm).ends c) :
    ∃ behind kind, c.Reads behind d ∧ KindText behind kind ∧
      (c.groups.lookup 3 = none → groupText text d.groups 3 = kind) := by
  rcases mem_ends_alt.mp h with h | h
  · obtain ⟨c₁, h₁, h⟩ := mem_ends_seq.mp h
    obtain ⟨c₂, h₂, h⟩ := mem_ends_seq.mp h
    obtain ⟨c₃, h₃, h⟩ := mem_ends_seq.mp h
    obtain ⟨c₄, h₄, h⟩ := mem_ends_seq.mp h
    obtain rfl := List.mem_singleton.mp h
    obtain ⟨e, he, rfl⟩ := List.mem_map.mp h₃
    obtain ⟨gap, hgap, hne, hblank⟩ := exists_reads_someOf h₁
    obtain ⟨name, hname, hne', hletters⟩ := exists_reads_someOf he
    have hopen := reads_literal h₂
    refine ⟨_, some name, hgap.trans (hopen.trans ((hname.withGroups _).trans (reads_literal h₄))),
      .some hne hblank hne' hletters, fun _ => ?_⟩
    rw [groupText, lookup_of_mem_ends (by decide) h₄, List.lookup_cons_self, Option.map_some,
      sliceBytes_of_reads (hpre.trans (hgap.trans hopen)) hname]
  · obtain rfl := List.mem_singleton.mp h
    refine ⟨[], none, .refl d, .none, fun hnone => ?_⟩
    rw [groupText, hnone, Option.map_none]

/-- A match of the form has read the form of an entry, and its groups are the parts of the entry. -/
theorem exists_spells_of_mem_ends (h : d ∈ form.ends (Cursor.start 0 text)) :
    ∃ path numerals kind, Spells text ⟨path, numbers numerals, kind⟩ ∧
      groupText text d.groups 1 = some path ∧ groupText text d.groups 2 = some numerals ∧
      groupText text d.groups 3 = kind := by
  rw [form_eq] at h
  obtain ⟨c₁, h₁, h⟩ := mem_ends_seq.mp h
  obtain ⟨c₂, h₂, h⟩ := mem_ends_seq.mp h
  obtain ⟨c₃, h₃, h⟩ := mem_ends_seq.mp h
  obtain ⟨c₄, h₄, h⟩ := mem_ends_seq.mp h
  obtain ⟨c₅, h₅, h⟩ := mem_ends_seq.mp h
  obtain rfl := List.mem_singleton.mp h
  have hkept : ∀ n, n = 1 ∨ n = 2 → d.groups.lookup n = c₃.groups.lookup n := by
    rintro n (rfl | rfl)
    · rw [lookup_of_mem_ends (by decide) h₅, lookup_of_mem_ends (by decide) h₄]
    · rw [lookup_of_mem_ends (by decide) h₅, lookup_of_mem_ends (by decide) h₄]
  have hfirst : c₃.groups.lookup 1 = c₁.groups.lookup 1 := by
    rw [lookup_of_mem_ends (by decide) h₃, lookup_of_mem_ends (by decide) h₂]
  have hlast : c₃.groups.lookup 3 = none := by
    rw [lookup_of_mem_ends (by decide) h₃, lookup_of_mem_ends (by decide) h₂,
      lookup_of_mem_ends (by decide) h₁]
    rfl
  obtain ⟨e₁, he₁, rfl⟩ := List.mem_map.mp h₁
  obtain ⟨e₃, he₃, rfl⟩ := List.mem_map.mp h₃
  obtain ⟨path, hpath⟩ := exists_reads_of_mem_ends he₁
  obtain ⟨numerals, hread, hnumerals⟩ := exists_reads_numeralsForm he₃
  have hpre := (hpath.withGroups _).trans (reads_literal h₂)
  obtain ⟨behind, kind, hbehind, hkind, hgroup⟩ :=
    exists_reads_optional_kindForm (hpre.trans (hread.withGroups _)) h₄
  obtain ⟨rfl, hend⟩ := eq_of_mem_textEnd h₅
  have htext : text = path ++ ':' :: (numerals ++ behind) := by
    have hall := ((hpre.trans (hread.withGroups _)).trans hbehind).rest
    rw [hend, List.append_nil] at hall
    simpa [Cursor.start] using hall
  have hline : '\n' ∉ path := fun hmem =>
    absurd ((readsOnly_one fun _ ha => ha).seq (readsOnly_one fun _ ha => ha).many he₁ path hpath
      '\n' hmem) (by decide)
  refine ⟨path, numerals, kind, ?_, ?_, ?_, hgroup hlast⟩
  · rw [htext]
    exact .intro (advances_one.seq.ne_nil he₁ hpath) hline hnumerals hkind
  · rw [groupText, hkept 1 (Or.inl rfl), hfirst, List.lookup_cons_self, Option.map_some,
      sliceBytes_of_reads (.refl _) hpath]
  · rw [groupText, hkept 2 (Or.inr rfl), List.lookup_cons_self, Option.map_some,
      sliceBytes_of_reads hpre hread]

end Reading

section Accepted

variable {text rest numerals behind : List Char} {kind : Option (List Char)} {e : Entry}

theorem single_nextNumeral : nextNumeral.Single := by
  have hrun : ∀ f : Char → Bool, (Pattern.run f).Single := fun _ _ => Nat.le_refl 1
  have hempty : Pattern.empty.Single := fun _ => Nat.le_refl 1
  exact (hrun isBlank).seq ((single_literal ",").seq ((hrun isBlank).seq
    (((single_one isDecimalDigit).seq (hrun isDecimalDigit)).seq hempty)))

theorem accepts_nextNumeral {gap gap' ds : List Char} (hgap : AllBlank gap) (hgap' : AllBlank gap')
    (hds : Numeral ds) (hrest : ∀ a ∈ rest.head?, isDecimalDigit a = false) :
    nextNumeral.Accepts (gap ++ ',' :: (gap' ++ ds)) rest := by
  have hdigits : (all [digits]).Accepts ds rest := by
    have hnone : Pattern.empty.Accepts [] rest := accepts_empty
    have h := (accepts_someOf hds.ne_nil hds.digits hrest).seq hnone
    rwa [List.append_nil] at h
  have hhead : ∀ a ∈ (ds ++ rest).head?, isBlank a = false := by
    obtain ⟨d, ds, rfl⟩ := List.exists_cons_of_ne_nil hds.ne_nil
    exact head?_cons_not (isBlank_of_isDecimalDigit (hds.digits d List.mem_cons_self))
  have hcomma : ∀ a ∈ (',' :: (gap' ++ ds) ++ rest).head?, isBlank a = false :=
    head?_cons_not (by decide)
  exact (accepts_run hgap hcomma).seq ((accepts_literal ",").cons
    ((accepts_run hgap' hhead).seq hdigits))

theorem accepts_numeralsForm (h : Numerals numerals)
    (hrest : ∀ a ∈ rest.head?, isDecimalDigit a = false) : numeralsForm.Accepts numerals rest := by
  induction h generalizing rest with
  | one hds =>
    have hnone : (many true nextNumeral).Accepts [] rest := accepts_many_nil
    have h := (accepts_someOf hds.ne_nil hds.digits hrest).seq hnone
    rwa [List.append_nil] at h
  | @append front gap gap' ds _ hgap hgap' hds ih =>
    have hhead : ∀ a ∈ ((gap ++ ',' :: (gap' ++ ds)) ++ rest).head?, isDecimalDigit a = false := by
      cases gap with
      | nil => exact head?_cons_not (by decide)
      | cons b gap =>
        exact head?_cons_not (isDecimalDigit_of_isBlank (hgap b List.mem_cons_self))
    exact (ih hhead).seq_many_append single_nextNumeral (accepts_nextNumeral hgap hgap' hds hrest)
      (by simp)

theorem accepts_optional_kindForm (h : KindText behind kind) :
    (optional kindForm).Accepts behind [] := by
  cases h with
  | none => exact accepts_optional_nil
  | @some gap name hne hgap hname hletters =>
    have hopen : ∀ a ∈ ('(' :: (name ++ [')']) ++ []).head?, isBlank a = false :=
      head?_cons_not (by decide)
    have hclose : ∀ a ∈ ([')'] ++ ([] ++ [])).head?, isKindChar a = false :=
      head?_cons_not (by decide)
    exact Accepts.optional ((accepts_someOf hne hgap hopen).seq ((accepts_literal "(").cons
      ((accepts_someOf hname hletters hclose).group.seq ((accepts_literal ")").cons accepts_empty))))

theorem accepts_pathForm {path : List Char} (hne : path ≠ []) (hline : '\n' ∉ path) :
    pathForm.Accepts path rest := by
  have hinLine : ∀ c ∈ path, (c != '\n') = true := fun c hc =>
    bne_iff_ne.mpr fun heq => hline (heq ▸ hc)
  obtain ⟨a, path, rfl⟩ := List.exists_cons_of_ne_nil hne
  obtain ⟨ha, hpath⟩ := List.forall_mem_cons.mp hinLine
  exact (accepts_one (f := (· != '\n')) ha).cons (accepts_many_one hpath)

/-- The form of an entry is matched. -/
theorem form_ends_ne_nil (h : Spells text e) : form.ends (Cursor.start 0 text) ≠ [] := by
  cases h with
  | @intro path numerals behind kind hne hline hnumerals hkind =>
    have hhead : ∀ c ∈ (behind ++ []).head?, isDecimalDigit c = false := by
      rw [List.append_nil]
      exact hkind.head?_not_digit
    have hend := (accepts_optional_kindForm hkind).seq (accepts_textEnd.seq accepts_empty)
    rw [List.append_nil, List.append_nil] at hend
    have hback := (accepts_literal ":").cons
      ((accepts_numeralsForm hnumerals hhead).group (n := 2) |>.seq hend)
    have hform := ((accepts_pathForm hne hline).group (n := 1)).seq hback
    obtain ⟨d, hd, -⟩ := hform (Cursor.start 0 (path ++ ':' :: (numerals ++ behind)))
      (List.append_nil _).symm
    rw [form_eq]
    exact List.ne_nil_of_mem hd

end Accepted

section Parse

variable {text : List Char} {e : Entry}

/-- What is read is put together from the groups of the preferred match. -/
theorem parse?_eq (text : List Char) :
    parse? text = match (form.ends (Cursor.start 0 (trim text))).head? with
      | none => none
      | some d =>
        match groupText (trim text) d.groups 1, groupText (trim text) d.groups 2 with
        | some path, some numerals => some ⟨path, numbers numerals, groupText (trim text) d.groups 3⟩
        | _, _ => none := by
  rw [parse?, matchHere?]
  cases (form.ends (Cursor.start 0 (trim text))).head? with
  | none => rfl
  | some d => rfl

/-- What is read from a text is what the trimmed text spells. -/
theorem parse?_eq_some_iff : parse? text = some e ↔ Spells (trim text) e := by
  have hread : ∀ d ∈ form.ends (Cursor.start 0 (trim text)),
      (form.ends (Cursor.start 0 (trim text))).head? = some d →
      ∃ e, parse? text = some e ∧ Spells (trim text) e := by
    intro d hd hhead
    obtain ⟨path, numerals, kind, hspells, hpath, hnumerals, hkind⟩ := exists_spells_of_mem_ends hd
    refine ⟨_, ?_, hspells⟩
    rw [parse?_eq, hhead]
    dsimp only
    rw [hpath, hnumerals, hkind]
  cases hhead : (form.ends (Cursor.start 0 (trim text))).head? with
  | none =>
    have hnone : parse? text = none := by rw [parse?_eq, hhead]
    rw [hnone]
    refine iff_of_false (Option.some_ne_none e).symm fun h => form_ends_ne_nil h ?_
    exact List.head?_eq_none_iff.mp hhead
  | some d =>
    obtain ⟨e', he', hspells⟩ := hread d (List.mem_of_head? hhead) hhead
    rw [he']
    constructor
    · intro h
      rwa [← Option.some.inj h]
    · intro h
      rw [hspells.unique h]

end Parse

end Concordance.Entry
