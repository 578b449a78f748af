import Concordance.Proofs.Annotate.Owner
import Concordance.Proofs.Block.Inserted
import Concordance.Proofs.Entry.Reread

/-!
Line ends of an annotated file.

In a text whose lines all end with a carriage return and a line feed, a cut at the start of a line
leaves two such texts, and a block is written with the line ends of the text it goes into. So each
update keeps the line ends (`crlf_apply`), and the run keeps them. The texts that go into a block hold
no line feeds of their own if those of the symbols do not. Main statement: `crlf_annotateText`.
-/

namespace Concordance

open Text

namespace Text

variable {front back line text : List Char}

/-- Every line feed stands behind a carriage return. -/
def AllCrlf (text : List Char) : Prop :=
  ∀ front back, text = front ++ '\n' :: back → front.getLast? = some '\r'

/-- The text has lines that end with a carriage return and a line feed, and none that end with a line
feed alone. -/
structure Crlf (text : List Char) : Prop where
  present : ['\r', '\n'] <:+: text
  all : AllCrlf text

theorem allCrlf_of_notMem (h : '\n' ∉ text) : AllCrlf text := by
  rintro front back rfl
  exact absurd (by simp) h

theorem AllCrlf.append (hfront : AllCrlf front) (hback : AllCrlf back) : AllCrlf (front ++ back) := by
  intro pre post hcut
  rcases List.append_eq_append_iff.mp hcut with ⟨mid, rfl, hmid⟩ | ⟨mid, hpre, hmid⟩
  · have hlast := hback mid post hmid
    rw [List.getLast?_append, hlast]
    rfl
  · cases mid with
    | nil => exact absurd (hback [] post hmid.symm) (by simp)
    | cons c mid =>
      obtain ⟨rfl, -⟩ := List.cons.inj hmid
      exact hfront pre mid hpre

theorem AllCrlf.flatten {lines : List (List Char)} (h : ∀ line ∈ lines, AllCrlf line) :
    AllCrlf lines.flatten := by
  induction lines with
  | nil => exact allCrlf_of_notMem (by simp)
  | cons line lines ih =>
    obtain ⟨hline, hlines⟩ := List.forall_mem_cons.mp h
    exact hline.append (ih hlines)

theorem allCrlf_line (h : '\n' ∉ line) : AllCrlf (line ++ ['\r', '\n']) := by
  refine (allCrlf_of_notMem h).append ?_
  intro front back hcut
  rcases front with _ | ⟨c, _ | ⟨d, front⟩⟩
  · simp at hcut
  · exact congrArg some (List.cons.inj hcut).1.symm
  · simp at hcut

/-- What stands in front of a cut keeps the line ends. -/
theorem AllCrlf.of_append_left (h : AllCrlf (front ++ back)) : AllCrlf front := by
  rintro pre post rfl
  exact h pre (post ++ back) (by simp)

/-- What stands behind a cut at the start of a line keeps the line ends. -/
theorem AllCrlf.of_append_right (h : AllCrlf (front ++ back)) (hfront : front.getLast? ≠ some '\r') :
    AllCrlf back := by
  rintro pre post rfl
  have hlast := h (front ++ pre) post (by simp)
  by_cases hpre : pre = []
  · rw [hpre, List.append_nil] at hlast
    exact absurd hlast hfront
  · rwa [List.getLast?_append_of_ne_nil _ hpre] at hlast

theorem getLast?_flatten_of_ended {lines : List (List Char)} (h : ∀ line ∈ lines, Ended line) :
    lines.flatten.getLast? ≠ some '\r' := by
  rcases List.eq_nil_or_concat' lines with rfl | ⟨front, last, rfl⟩
  · simp
  · have hlast := h last (by simp)
    rw [List.flatten_concat, List.getLast?_append_of_ne_nil _ hlast.ne_nil, hlast.getLast?]
    decide

end Text

section Edit

variable {text : List Char} {symbol : Symbol} {entries : List (List Char)} {options : BlockOptions}
  {e : BlockEdit}

theorem lineEndOf_of_crlf (h : Crlf text) : lineEndOf text = ['\r', '\n'] :=
  if_pos (contains_iff.mpr h.present)

/-- What an edit writes has the line ends of the text. -/
theorem BlockEdit.allCrlf_block (h : blockEdit? text symbol entries options = some e)
    (hone : BlockParts.OneLine symbol entries options) (htext : Crlf text) :
    AllCrlf (e.block text).flatten := by
  refine AllCrlf.flatten fun line hline => ?_
  obtain ⟨inner, hinner, rfl⟩ := List.mem_map.mp hline
  rw [lineEndOf_of_crlf htext]
  refine allCrlf_line (List.not_mem_append (newline_notMem_indentOf _) ?_)
  exact newline_notMem_lines (BlockEdit.formed h hone) inner hinner

theorem BlockEdit.crlf_infix_block (e : BlockEdit) (htext : Crlf text) :
    ['\r', '\n'] <:+: (e.block text).flatten := by
  have hfirst : CommentStyle.starred.blockStart ∈ e.parts.lines .starred := by
    simp [BlockParts.lines]
  obtain ⟨above, below, hlines⟩ := List.append_of_mem hfirst
  rw [block, hlines, lineEndOf_of_crlf htext, List.map_append, List.map_cons, List.flatten_append,
    List.flatten_cons]
  refine List.infix_append_of_infix_right (List.infix_append_of_infix_left ?_)
  exact (List.suffix_append _ _).isInfix

/-- An edit of a text keeps its line ends. -/
theorem BlockEdit.crlf_apply (h : blockEdit? text symbol entries options = some e)
    (hone : BlockParts.OneLine symbol entries options) (htext : Crlf text) : Crlf (e.apply text) := by
  obtain ⟨-, hstart, -⟩ := blockEdit?_cases h
  have hall : AllCrlf (((linesWithEnds text).take e.definition).flatten ++
      ((linesWithEnds text).drop e.definition).flatten) := by
    rw [← List.flatten_append, List.take_append_drop, flatten_linesWithEnds]
    exact htext.all
  have hended := getLast?_flatten_of_ended fun line hline =>
    ended_of_mem_take (BlockEdit.definition_lt h) hline
  have hbehind := hall.of_append_right hended
  rw [BlockEdit.take_definition hstart, List.flatten_append, List.append_assoc] at hall
  have hfront := hall.of_append_left
  rw [apply, spliceBlock]
  refine ⟨?_, (hfront.append (allCrlf_block h hone htext)).append hbehind⟩
  exact List.infix_append_of_infix_left
    (List.infix_append_of_infix_right (e.crlf_infix_block htext))

end Edit

section Run

variable {symbols : List Symbol} {text : List Char}

/-- A run of updates keeps the line ends. -/
theorem crlf_foldl_perform {options : BlockOptions} {tasks : List Task}
    (hone : ∀ task ∈ tasks, BlockParts.OneLine task.owner task.entries options)
    (htext : Crlf text) : Crlf (tasks.foldl (Task.perform options) text) := by
  induction tasks generalizing text with
  | nil => exact htext
  | cons task tasks ih =>
    obtain ⟨hfirst, hrest⟩ := List.forall_mem_cons.mp hone
    refine ih hrest ?_
    rw [Task.perform_eq]
    split
    · exact htext
    · next e hedit => exact e.crlf_apply hedit hfirst htext

/-- A rendered entry holds a line feed only if its path or its kind does. -/
theorem Entry.newline_notMem_render {entry : Entry} (hpath : '\n' ∉ entry.path)
    (hkind : ∀ kind ∈ entry.kind, '\n' ∉ kind) : '\n' ∉ entry.render := by
  have hlines : '\n' ∉ List.intercalate [','] (entry.lines.map decimal) := by
    intro hmem
    rcases mem_intercalate hmem with hcomma | ⟨piece, hpiece, hdigit⟩
    · cases hcomma
    · obtain ⟨n, -, rfl⟩ := List.mem_map.mp hpiece
      exact absurd (isDigit_of_mem_decimal hdigit) (by decide)
  unfold Entry.render
  refine List.not_mem_append (List.not_mem_append (by simp [hpath]) hlines) ?_
  split
  · next kind hsome => simp [hkind kind hsome]
  · exact List.not_mem_nil

/-- Every entry of a symbol is written for a use of it. -/
theorem Symbol.exists_render_of_mem_entries {s : Symbol} {options : EntryOptions} {t : List Char}
    (h : t ∈ s.entries options) :
    ∃ used ∈ s.usedLines options, ∃ lines, (used.entry lines).render = t := by
  by_cases hgroup : options.groupByFile = true
  · rw [entries_of_grouping hgroup] at h
    obtain ⟨first, hfirst, rfl⟩ := List.mem_map.mp h
    exact ⟨first, mem_of_mem_firstPerKey UsedLine.path hfirst, _, rfl⟩
  · rw [Bool.not_eq_true] at hgroup
    obtain ⟨used, hused, rfl⟩ := (mem_entries_of_not_grouping hgroup).mp h
    exact ⟨used, hused, _, rfl⟩

theorem Symbol.NoLineFeed.entries {s : Symbol} (h : s.NoLineFeed) (options : EntryOptions) :
    ∀ t ∈ s.entries options, '\n' ∉ t := by
  intro t ht
  obtain ⟨used, hused, lines, rfl⟩ := Symbol.exists_render_of_mem_entries ht
  obtain ⟨u, hu, -, rfl⟩ := mem_usedLines.mp hused
  refine Entry.newline_notMem_render (newline_notMem_displayPath (h.paths u hu) _) ?_
  intro kind hkind hmem
  obtain rfl := Option.some.inj hkind
  rcases (UsageKind.name_letters _).2 _ hmem with hletter | hletter
  · exact absurd hletter (by decide)
  · cases hletter

theorem noLineFeed_of_lineOwner? {owner : Symbol} (h : lineOwner? symbols = some owner)
    (hsymbols : ∀ s ∈ symbols, s.NoLineFeed) : owner.NoLineFeed := by
  obtain ⟨⟨first, hfirst, howner⟩, huses⟩ := lineOwner?_spec h
  have hname := hsymbols first hfirst
  refine ⟨?_, ?_, fun u hu => ?_⟩
  · rw [howner]
    exact hname.name
  · rw [howner]
    exact hname.container
  · obtain ⟨s, hs, hmem⟩ := (huses u).mp hu
    exact (hsymbols s hs).paths u hmem

/-- In a text in which every line feed stands behind a carriage return, annotating leaves no other, as
long as no name, container or path of a use holds a line feed. -/
theorem crlf_annotateText (text : List Char) (file : String) (symbols : List Symbol)
    (options : AnnotateOptions) (htext : Crlf text) (hsymbols : ∀ s ∈ symbols, s.NoLineFeed) :
    Crlf (annotateText text file symbols options).text := by
  rw [annotateText_text]
  refine crlf_foldl_perform (fun task htask => ?_) htext
  obtain ⟨line, htask⟩ := exists_lineTask?_of_mem_annotateTasks htask
  obtain ⟨howner, hentries, -⟩ := lineTask?_spec htask
  have hfeed := noLineFeed_of_lineOwner? howner fun s hs =>
    hsymbols s (List.mem_of_mem_filter (List.mem_of_mem_filter hs))
  refine hfeed.oneLine ?_
  rw [hentries]
  exact hfeed.entries options.entries

/-- The lines of a file with a class and a method below an old comment. -/
def returnedLines : List (List Char) :=
  ["class A \x7b", "  /* Says it. */", "  m() \x7b\x7d", "\x7d"].map String.toList

/-- The file, each line ended with a carriage return and a line feed. -/
def returnedText : List Char :=
  (returnedLines.map (· ++ ['\r', '\n'])).flatten

/-- The method, used in another file. -/
def returnedMethod : Symbol where
  id := ""
  name := "m"
  kind := .method
  filePath := "a.js"
  position := ⟨2, 2⟩
  range := ⟨⟨2, 2⟩, ⟨2, 8⟩⟩
  container := some "A"
  usages := [⟨"b.js", ⟨1, 4⟩, ⟨⟨1, 4⟩, ⟨1, 5⟩⟩, "a.m()", .call⟩]

theorem crlf_annotateText_returned :
    Crlf returnedText ∧ (∀ s ∈ [returnedMethod], s.NoLineFeed) ∧
      (linesWithEnds (annotateText returnedText "a.js" [returnedMethod] {}).text).length = 8 ∧
      Crlf (annotateText returnedText "a.js" [returnedMethod] {}).text := by
  have htext : Crlf returnedText := by
    refine ⟨contains_iff.mp (by decide +kernel), AllCrlf.flatten fun line hline => ?_⟩
    obtain ⟨inner, hinner, rfl⟩ := List.mem_map.mp hline
    have hfeed : ∀ inner ∈ returnedLines, '\n' ∉ inner := by decide +kernel
    exact allCrlf_line (hfeed inner hinner)
  have hsymbols : ∀ s ∈ [returnedMethod], s.NoLineFeed := by
    simp only [List.forall_mem_cons, List.not_mem_nil, false_implies, implies_true, and_true]
    exact ⟨by decide, by decide, by decide⟩
  exact ⟨htext, hsymbols, by decide +kernel,
    crlf_annotateText returnedText "a.js" [returnedMethod] {} htext hsymbols⟩

end Run

end Concordance
