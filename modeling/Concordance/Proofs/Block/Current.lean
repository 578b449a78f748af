import Concordance.Proofs.Block.Edit
import Concordance.Proofs.Entry.Path
import Concordance.Proofs.Entry.Selection

/-!
Which entries of an update stand in the block that it leaves.

An entry that an update brings meets the entries of the comments above the definition, and of those
for one path the block keeps the one with the most lines. So a block may keep what an earlier state of
the files said. Main statement: `entry_mem_block_iff`.
-/

namespace Concordance

open Text

variable {text : List Char} {symbol user : Symbol} {entries : List (List Char)}
  {options : BlockOptions} {entryOptions : EntryOptions} {a : List Char}

/-- The entries in the comments above the definition of the symbol. -/
def entriesAbove (text : List Char) (symbol : Symbol) : List (List Char) :=
  let hash := hasHashComments symbol.filePath
  match definitionLine? (linesWithEnds text) symbol with
  | none => []
  | some definition =>
    match blocksAbove hash (linesWithEnds text) definition with
    | .found blocks => (BlockParts.ofBlocks (blocks.map (·.body hash))).entries
    | .missing => []
    | .malformed => []

/-- No entry in the comments above the definition has more lines for the path that is read from
`entry`. -/
def NotOutnumbered (text : List Char) (symbol : Symbol) (entry : List Char) : Prop :=
  ∀ now, Entry.parse? entry = some now → ∀ old ∈ entriesAbove text symbol, ∀ was,
    Entry.parse? old = some was → was.path = now.path → was.lines.length ≤ now.lines.length

/-- The text `after` is the text with the block of the parts right above the definition, in place of
lines that stood there. -/
def HasBlock (text after : List Char) (definition : Nat) (parts : BlockParts) : Prop :=
  ∃ start ≤ definition, after = spliceBlock (linesWithEnds text) start definition
    (parts.render .starred (indentOf ((linesWithEnds text)[definition]?.getD [])) (lineEndOf text))

theorem BlockEdit.hasBlock (e : BlockEdit) (text : List Char) (h : e.start ≤ e.definition) :
    HasBlock text (e.apply text) e.definition e.parts :=
  ⟨e.start, h, by rw [BlockEdit.apply, BlockEdit.block, render_eq_flatten]⟩

/-- An update with entries for a definition that is found leaves a block with the entries above it
merged with the new ones. -/
theorem exists_block_of_entries (options : BlockOptions) (hne : entries ≠ []) {definition : Nat}
    (hfound : definitionLine? (linesWithEnds text) symbol = some definition) :
    ∃ parts : BlockParts,
      HasBlock text (updateBlock text symbol entries .starred options).text definition parts ∧
      parts.entries = Entry.merge options.groupByFile (entriesAbove text symbol ++ entries) := by
  rw [updateBlock_text, entriesAbove, blockEdit?, hfound]
  dsimp only
  cases blocksAbove (hasHashComments symbol.filePath) (linesWithEnds text) definition with
  | found blocks => exact ⟨_, BlockEdit.hasBlock ⟨_, _, _⟩ text (Nat.sub_le _ _), rfl⟩
  | missing =>
    dsimp only
    rw [if_neg (by simpa using hne)]
    exact ⟨_, BlockEdit.hasBlock ⟨_, _, _⟩ text (Nat.le_refl _), rfl⟩
  | malformed => exact ⟨_, BlockEdit.hasBlock ⟨_, _, _⟩ text (Nat.le_refl _), rfl⟩

theorem Entry.parse?_trim (t : List Char) : Entry.parse? (trim t) = Entry.parse? t := by
  simp only [Entry.parse?, trim_trim]

theorem Entry.parse?_nil : Entry.parse? [] = none := rfl

/-- What is read from texts is read from the cleaned ones. -/
theorem forall_mem_readable_cleaned {texts : List (List Char)} {P : Entry → Prop} :
    (∀ r ∈ Entry.readable (Entry.cleaned texts), P r.entry) ↔
      ∀ t ∈ texts, ∀ e, Entry.parse? t = some e → P e := by
  constructor
  · intro h t ht e he
    have hne : trim t ≠ [] := by
      intro hnil
      rw [← Entry.parse?_trim, hnil, Entry.parse?_nil] at he
      cases he
    exact h ⟨e, trim t⟩ (Entry.mem_readable.mpr
      ⟨Entry.mem_cleaned.mpr ⟨⟨t, ht, rfl⟩, hne⟩, (Entry.parse?_trim t).trans he⟩)
  · intro h r hr
    obtain ⟨htext, hentry⟩ := Entry.mem_readable.mp hr
    obtain ⟨⟨t, ht, htrim⟩, -⟩ := Entry.mem_cleaned.mp htext
    rw [← htrim, Entry.parse?_trim] at hentry
    exact h t ht r.entry hentry

/-- With grouping, an entry that an update brings stands in the block that it leaves exactly if no
entry above the definition has more lines for the same path. -/
theorem entry_mem_block_iff {definition : Nat}
    (hfound : definitionLine? (linesWithEnds text) symbol = some definition)
    (hgroup : entryOptions.groupByFile = true) (hmerge : options.groupByFile = true)
    (hpaths : user.FlushPaths entryOptions) (ha : a ∈ user.entries entryOptions) :
    ∃ parts : BlockParts,
      HasBlock text (updateBlock text symbol (user.entries entryOptions) .starred options).text
        definition parts ∧
      (a ∈ parts.entries ↔ NotOutnumbered text symbol a) := by
  obtain ⟨parts, hblock, hentries⟩ :=
    exists_block_of_entries options (List.ne_nil_of_mem ha) hfound
  refine ⟨parts, hblock, ?_⟩
  rw [hentries, hmerge, NotOutnumbered]
  cases he : Entry.parse? a with
  | none =>
    -- A text that is read as no entry competes with none.
    have hkept : a ∈ Entry.unread (Entry.cleaned (entriesAbove text symbol ++
        user.entries entryOptions)) := by
      obtain ⟨htrim, hne⟩ := Symbol.clean_of_mem_entries hgroup hpaths ha
      exact Entry.mem_unread.mpr
        ⟨Entry.mem_cleaned.mpr ⟨⟨a, List.mem_append_right _ ha, htrim⟩, hne⟩, he⟩
    have hmem : a ∈ Entry.merge true (entriesAbove text symbol ++ user.entries entryOptions) := by
      rw [Entry.merge, if_pos rfl, Entry.mergeByPath_eq]
      exact List.mem_append_right _ hkept
    simp [hmem]
  | some now =>
    have hkept : a ∈ Entry.mergeByPath (entriesAbove text symbol ++ user.entries entryOptions) ↔
        ∀ was ∈ Entry.readable (Entry.cleaned (entriesAbove text symbol)),
          was.entry.path = now.path → was.entry.lines.length ≤ now.lines.length :=
      Entry.text_mem_mergeByPath_iff (r := ⟨now, a⟩)
        (Symbol.filter_path_entries hgroup hpaths ha he)
    rw [Entry.merge, if_pos rfl, hkept]
    simp only [Option.some.injEq, forall_eq']
    exact forall_mem_readable_cleaned
      (P := fun was => was.path = now.path → was.lines.length ≤ now.lines.length)

/-- A function `f` on the sixth line, which a file calls on its second line. -/
def calledFrom (path : String) : Symbol where
  id := ""
  name := "f"
  kind := .function
  filePath := "a.js"
  position := ⟨5, 9⟩
  range := ⟨⟨5, 9⟩, ⟨5, 15⟩⟩
  usages := [⟨path, ⟨1, 0⟩, ⟨⟨1, 0⟩, ⟨1, 1⟩⟩, "f();", .call⟩]

/-- The function below a block with the entry. -/
def belowBlock (entry : String) : List Char :=
  "/**\n * Function f\n *\n * @usedby ".toList ++ entry.toList ++
    "\n */\nfunction f() {}\n".toList

theorem entry_mem_block_iff_single :
    definitionLine? (linesWithEnds (belowBlock "b.js:1 (call)")) (calledFrom "b.js") = some 5 ∧
      (calledFrom "b.js").FlushPaths {} ∧
      "b.js:2 (call)".toList ∈ (calledFrom "b.js").entries {} ∧
      ∃ parts : BlockParts,
        HasBlock (belowBlock "b.js:1 (call)") (updateBlock (belowBlock "b.js:1 (call)")
          (calledFrom "b.js") ((calledFrom "b.js").entries {}) .starred {}).text 5 parts ∧
        ("b.js:2 (call)".toList ∈ parts.entries ↔
          NotOutnumbered (belowBlock "b.js:1 (call)") (calledFrom "b.js") "b.js:2 (call)".toList) :=
  have hfound : definitionLine? (linesWithEnds (belowBlock "b.js:1 (call)")) (calledFrom "b.js") =
      some 5 := by decide +kernel
  have hpaths : (calledFrom "b.js").FlushPaths {} := by decide +kernel
  have hentry : "b.js:2 (call)".toList ∈ (calledFrom "b.js").entries {} := by decide +kernel
  ⟨hfound, hpaths, hentry, entry_mem_block_iff hfound rfl rfl hpaths hentry⟩

/-- An entry above the definition with three lines of the file stays, and the one line of now is not
listed. White space before a path is lost. -/
theorem entry_notMem_block :
    (calledFrom "b.js").entries {} = ["b.js:2 (call)".toList] ∧
      (updateBlock (belowBlock "b.js:1,2,3 (call)") (calledFrom "b.js")
        ["b.js:2 (call)".toList] .starred {}) = ⟨belowBlock "b.js:1,2,3 (call)", []⟩ ∧
      (calledFrom " b.js").entries {} = [" b.js:2 (call)".toList] ∧
      (updateBlock "function f() {}\n".toList (calledFrom " b.js")
        [" b.js:2 (call)".toList] .starred {}) = ⟨belowBlock "b.js:2 (call)", []⟩ := by
  decide +kernel

end Concordance
