import Concordance.Proofs.Entry.Form

/-!
Entries that are read back as they were written.

A path may hold colons, commas, numbers and parentheses; it is read back as long as it stands on one
line and does not start with white space. Every entry that is read and names a line has such a path, so
writing it again changes nothing more. Main statement: `parse?_render_and_again`.
-/

namespace Concordance.Entry

open Text

/-- A path that can be written in an entry: not empty, on one line, and with no white space in
front. -/
structure PlainPath (path : List Char) : Prop where
  ne_nil : path ≠ []
  oneLine : '\n' ∉ path
  flush : ∀ c ∈ path.head?, isBlank c = false

theorem plainPath_iff {path : List Char} :
    PlainPath path ↔ path ≠ [] ∧ '\n' ∉ path ∧ path.head?.all (fun c => !isBlank c) = true := by
  rw [Option.all_eq_true]
  simp only [Bool.not_eq_true']
  exact ⟨fun h => ⟨h.ne_nil, h.oneLine, h.flush⟩, fun ⟨hne, hline, hflush⟩ => ⟨hne, hline, hflush⟩⟩

instance : DecidablePred PlainPath :=
  fun _ => decidable_of_iff' _ plainPath_iff

/-- An entry with a plain path and 64-bit line numbers, at least one; its kind, if it has one, is made
of letters and underscores. -/
structure Writable (e : Entry) : Prop where
  path : PlainPath e.path
  lines_ne_nil : e.lines ≠ []
  lines_le : ∀ n ∈ e.lines, n ≤ maxNumber
  kind : ∀ name ∈ e.kind, name ≠ [] ∧ ∀ c ∈ name, c.isAlpha = true ∨ c = '_'

variable {e : Entry} {text : List Char} {lines : List Nat}

section Written

theorem numeral_decimal (n : Nat) : Numeral (decimal n) where
  ne_nil := Nat.toDigits_ne_nil
  digits c hc := by
    have hdigit := isDigit_of_mem_decimal hc
    have hascii : c.toNat < 0x80 := toNat_lt_of_isAlphanum (by simp [Char.isAlphanum, hdigit])
    rwa [isDecimalDigit, if_pos hascii]

theorem Numerals.comma {front numerals : List Char} (hfront : Numerals front)
    (h : Numerals numerals) : Numerals (front ++ ',' :: numerals) := by
  induction h with
  | one hds =>
    have hnone : AllBlank [] := by simp [AllBlank]
    exact hfront.append hnone hnone hds
  | append _ hgap hgap' hds ih => simpa using ih.append hgap hgap' hds

/-- Numbers with commas between them are numerals. -/
theorem numerals_intercalate (h : lines ≠ []) :
    Numerals ([','].intercalate (lines.map decimal)) := by
  induction lines with
  | nil => exact absurd rfl h
  | cons n lines ih =>
    cases lines with
    | nil => simpa [List.intercalate] using Numerals.one (numeral_decimal n)
    | cons m lines =>
      rw [List.map_cons, List.map_cons, List.intercalate_cons_cons]
      simpa using (Numerals.one (numeral_decimal n)).comma (ih (List.cons_ne_nil m lines))

/-- 64-bit numbers with commas between them are read back. -/
theorem numbers_intercalate (hne : lines ≠ []) (hle : ∀ n ∈ lines, n ≤ maxNumber) :
    numbers ([','].intercalate (lines.map decimal)) = lines := by
  have hcomma : ∀ piece ∈ lines.map decimal, ',' ∉ piece := by
    intro piece hpiece hmem
    obtain ⟨n, -, rfl⟩ := List.mem_map.mp hpiece
    exact absurd (isDigit_of_mem_decimal hmem) (by decide)
  have htrim : ∀ n, trim (decimal n) = decimal n := by
    intro n
    have hend := (Numerals.one (numeral_decimal n)).trimEnd
    refine trim_eq_self_iff.mpr ⟨trimStart_eq_self_iff.mpr fun c hc => ?_, hend⟩
    exact isBlank_of_isDecimalDigit ((numeral_decimal n).digits c (List.mem_of_head? hc))
  have hread : ∀ n ∈ lines, readNumber? (trim (decimal n)) = some n := fun n hn => by
    rw [htrim, readNumber?_decimal (hle n hn)]
  rw [numbers, List.splitOn_intercalate ',' hcomma (by simpa using hne), List.filterMap_map]
  exact (List.filterMap_congr hread).trans List.filterMap_some

theorem spells_render (h : e.Writable) : Spells e.render e := by
  obtain ⟨path, lines, kind⟩ := e
  have hnumbers := numbers_intercalate h.lines_ne_nil h.lines_le
  have hspells : ∀ {behind}, KindText behind kind →
      Spells (path ++ ':' :: ([','].intercalate (lines.map decimal) ++ behind)) ⟨path, lines, kind⟩ := by
    intro behind hkind
    have hform := Spells.intro h.path.ne_nil h.path.oneLine (numerals_intercalate h.lines_ne_nil) hkind
    rwa [hnumbers] at hform
  cases kind with
  | none => simpa [render] using hspells .none
  | some name =>
    obtain ⟨hne, hletters⟩ := h.kind name rfl
    have hkind : KindText ([' '] ++ '(' :: (name ++ [')'])) (some name) :=
      .some (List.cons_ne_nil _ _) (by decide) hne fun c hc => by
        simpa [isKindChar] using hletters c hc
    simpa [render] using hspells hkind

/-- A spelled text is trimmed if its path does not start with white space. -/
theorem Spells.trim_eq (h : Spells text e) (hpath : ∀ c ∈ e.path.head?, isBlank c = false) :
    trim text = text := by
  cases h with
  | @intro path numerals behind kind hne _ hnumerals hkind =>
    refine trim_eq_self_iff.mpr ⟨trimStart_eq_self_iff.mpr ?_, ?_⟩
    · obtain ⟨a, path, rfl⟩ := List.exists_cons_of_ne_nil hne
      exact hpath
    · have hfront : trimEnd (path ++ ':' :: numerals) = path ++ ':' :: numerals := by
        have hcolon : trimEnd (':' :: numerals) = ':' :: numerals := by
          rw [trimEnd_cons_of_not_blank (by decide), hnumerals.trimEnd]
        rw [trimEnd_append_of_ne_nil _ (by rw [hcolon]; exact List.cons_ne_nil _ _), hcolon]
      simpa using hkind.trimEnd_append hfront

/-- An entry is read back as it was written. -/
theorem parse?_render (h : e.Writable) : parse? e.render = some e := by
  have hspells := spells_render h
  rwa [parse?_eq_some_iff, hspells.trim_eq h.path.flush]

end Written

section Again

/-- What is read can be written, if it names a line. -/
theorem writable_of_parse? (h : parse? text = some e) (hlines : e.lines ≠ []) : e.Writable := by
  have hspells := parse?_eq_some_iff.mp h
  have hflush : ∀ c ∈ (trim text).head?, isBlank c = false :=
    trimStart_eq_self_iff.mp (trim_eq_self_iff.mp (trim_trim text)).1
  generalize trim text = trimmed at hspells hflush
  cases hspells with
  | @intro path numerals behind kind hne hline hnumerals hkind =>
    refine ⟨⟨hne, hline, ?_⟩, hlines, ?_, ?_⟩
    · obtain ⟨a, path, rfl⟩ := List.exists_cons_of_ne_nil hne
      exact hflush
    · intro n hn
      obtain ⟨piece, -, hread⟩ := List.mem_filterMap.mp hn
      exact le_of_readNumber? hread
    · intro name hname
      cases hkind with
      | none => cases hname
      | some _ _ hname' hletters =>
        obtain rfl := Option.some.inj hname
        exact ⟨hname', fun c hc => by simpa [isKindChar] using hletters c hc⟩

/-- A writable entry is read back as it was written, and so is every entry that was read from a text and
names a line. -/
theorem parse?_render_and_again :
    (∀ e : Entry, e.Writable → parse? e.render = some e) ∧
    ∀ (text : List Char) (e : Entry), parse? text = some e → e.lines ≠ [] →
      parse? e.render = some e :=
  ⟨fun _ h => parse?_render h, fun _ _ h hlines => parse?_render (writable_of_parse? h hlines)⟩

/-- An entry whose path looks like an entry itself. -/
def nestedEntry : Entry :=
  ⟨"a b:3,4 (call):5".toList, [7, 7, 12], some "import".toList⟩

theorem parse?_render_and_again_nestedEntry :
    nestedEntry.Writable ∧ parse? nestedEntry.render = some nestedEntry ∧
    parse? " a b:3,4 (call):5:7 , 7,12  (import)\t".toList = some nestedEntry ∧
      nestedEntry.lines ≠ [] ∧ parse? nestedEntry.render = some nestedEntry := by
  have hwritable : nestedEntry.Writable :=
    ⟨by decide, by decide, by decide, by decide⟩
  have hread : parse? " a b:3,4 (call):5:7 , 7,12  (import)\t".toList = some nestedEntry := by
    decide +kernel
  exact ⟨hwritable, parse?_render_and_again.1 _ hwritable, hread, by decide,
    parse?_render_and_again.2 _ _ hread (by decide)⟩

end Again

end Concordance.Entry
