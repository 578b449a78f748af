import Mathlib.Data.List.Pairwise
import Concordance.Proofs.Definition.Origin
import Concordance.Proofs.Definition.Site
import Concordance.Proofs.Digest
import Concordance.Scanner

/-!
When the ids of definitions are digests of different bytes.

Of definitions in one file the bytes tell all but methods apart. Of definitions in two files they do
not if the path of one goes on, behind the path of the other and a colon, as a name of that other file
starts: the bytes do not show where the path ends. Main statement: `nodup_siteBytes_iff`.
-/

namespace Concordance

open Text Pattern

/-- The definitions of a file that is read as a language. -/
def definedIn (file : Language × SourceFile) : List Symbol :=
  (file.1.definitions file.2.content file.2.path).symbols

/-- The bytes that the id of the definition is a digest of. -/
def Symbol.siteBytes (d : Symbol) : List UInt8 :=
  Symbol.idBytes d.filePath d.name d.position

section Colon

variable {s : SourceText} {path : String} {d : Symbol}

/-- A name found by a pattern holds only characters of its class. -/
theorem notMem_text {p body : Pattern} {front back : List Pattern} {f : Char → Bool}
    {lead rest : List Char} {start stop : Nat} {n : FoundName} (hp : p.Finds front body back f)
    {c : Char} (hc : f c = false) (hchars : s.chars = lead ++ rest) (hstart : byteLength lead = start)
    (h : n ∈ s.namesIn p start stop) : c ∉ n.text := by
  obtain ⟨_, e, g, _, _, _, -, hg, -, hreads, -⟩ := exists_found hp hchars hstart h
  intro hmem
  rw [hp.readsOnly hg _ hreads c hmem] at hc
  cases hc

theorem Php.colon_notMem (h : d ∈ (Php.definitions s path).symbols) (hkind : d.kind ≠ .event) :
    ':' ∉ d.name.toList := by
  have hall := (List.nil_append s.chars).symm
  rcases List.mem_append.mp (List.mem_mergeSort.mp h) with h | h
  · rcases List.mem_append.mp h with h | h
    · rcases List.mem_append.mp h with h | h
      · rcases mem_readClasses h with ⟨n, hn, -, hrecords⟩ | ⟨n, -, start, stop, hbody, hmember⟩
        · rw [hrecords.name]
          exact notMem_text finds_classHead (by decide) hall rfl hn
        · obtain ⟨m, last, rfl, -, hm⟩ := Php.exists_of_mem_methods hmember
          obtain ⟨pre, rest, hchars, hstart⟩ := exists_bodyFrom hbody
          have hcolon : ':' ∉ m.text := notMem_text finds_methodHead (by decide) hchars hstart hm
          exact (String.toList_ofList (l := m.text)).symm ▸ hcolon
      · obtain ⟨n, hn, ⟨stop, rfl⟩, -⟩ := Php.exists_of_mem_functions h
        rw [(records_symbolAt s path .function n stop).name]
        exact notMem_text finds_functionHead (by decide) hall rfl hn
    · obtain ⟨-, -, hword⟩ := mem_constants h
      intro hmem
      exact absurd (hword ':' hmem) (by decide)
  · exact absurd (led_of_mem_events h).1 hkind

theorem JavaScript.colon_notMem (h : d ∈ (JavaScript.definitions s path).symbols)
    (hkind : d.kind ≠ .event) : ':' ∉ d.name.toList := by
  have hall := (List.nil_append s.chars).symm
  rcases List.mem_append.mp (List.mem_mergeSort.mp h) with h | h
  · rcases List.mem_append.mp h with h | h
    · rcases mem_readClasses h with ⟨n, hn, -, hrecords⟩ | ⟨n, -, start, stop, hbody, hmember⟩
      · rw [hrecords.name]
        exact notMem_text finds_classHead (by decide) hall rfl hn
      · obtain ⟨m, last, rfl, -, hfound⟩ := JavaScript.exists_of_mem_methods hmember
        obtain ⟨pre, rest, hchars, hstart⟩ := exists_bodyFrom hbody
        have hcolon : ':' ∉ m.text := by
          rcases hfound with hfound | hfound
          · exact notMem_text finds_methodHead (by decide) hchars hstart hfound
          · exact notMem_text finds_arrowField (by decide) hchars hstart hfound
        exact (String.toList_ofList (l := m.text)).symm ▸ hcolon
    · obtain ⟨n, stop, rfl, -, hn⟩ := JavaScript.exists_of_mem_functions h
      rw [(records_symbolAt s path .function n stop).name]
      rcases hn with hn | hn
      · exact notMem_text finds_functionHead (by decide) hall rfl hn
      · exact notMem_text finds_assignedFunction (by decide) hall rfl hn
  · exact absurd (led_of_mem_events h).1 hkind

theorem Stylesheet.colon_notMem (h : d ∈ (Stylesheet.definitions s path).symbols)
    (hkind : d.kind ≠ .selector) : ':' ∉ d.name.toList := by
  rcases Stylesheet.mem_definitions h with ⟨hselector, -⟩ | ⟨-, -, hclass, -⟩
  · exact absurd hselector hkind
  · intro hmem
    exact absurd (hclass ':' hmem) (by decide)

/-- Only selectors and events have a colon in their names. -/
theorem kind_of_colon {file : Language × SourceFile} (h : d ∈ definedIn file)
    (hcolon : ':' ∈ d.name.toList) : d.kind = .selector ∨ d.kind = .event := by
  obtain ⟨language, file⟩ := file
  by_contra hkind
  rw [not_or] at hkind
  cases language with
  | php => exact Php.colon_notMem h hkind.2 hcolon
  | javascript => exact JavaScript.colon_notMem h hkind.2 hcolon
  | css => exact Stylesheet.colon_notMem h hkind.1 hcolon

end Colon

section Bytes

variable {f g : Language × SourceFile} {a b : Symbol}

theorem fits_of_mem_definedIn (hsize : byteLength f.2.content.toList < UInt64.size)
    (ha : a ∈ definedIn f) : a.position.Fits := by
  obtain ⟨offset, hposition⟩ := (Language.origin_of_mem_definitions ha).position
  have hle := positionAt_le_length (f.1.source f.2.content) offset
  rw [hposition]
  exact ⟨Nat.lt_of_le_of_lt hle.1 hsize, Nat.lt_of_le_of_lt hle.2 hsize⟩

theorem siteBytes_eq_iff (hsize : byteLength f.2.content.toList < UInt64.size)
    (hsize' : byteLength g.2.content.toList < UInt64.size) (ha : a ∈ definedIn f)
    (hb : b ∈ definedIn g) :
    a.siteBytes = b.siteBytes ↔
      f.2.path ++ ":" ++ a.name = g.2.path ++ ":" ++ b.name ∧ a.position = b.position := by
  rw [Symbol.siteBytes, Symbol.siteBytes, (Language.origin_of_mem_definitions ha).filePath,
    (Language.origin_of_mem_definitions hb).filePath]
  exact Symbol.idBytes_eq_iff (fits_of_mem_definedIn hsize ha) (fits_of_mem_definedIn hsize' hb)

/-- In one file the bytes tell sites apart. -/
theorem siteBytes_eq_iff_sameSite (hsize : byteLength f.2.content.toList < UInt64.size)
    (ha : a ∈ definedIn f) (hb : b ∈ definedIn f) : a.siteBytes = b.siteBytes ↔ a.SameSite b := by
  rw [siteBytes_eq_iff hsize hsize ha hb]
  refine and_congr_left fun _ => ⟨fun h => ?_, fun h => by rw [h]⟩
  simpa [← String.toList_inj] using h

theorem pairwise_siteBytes_iff (hsize : byteLength f.2.content.toList < UInt64.size) :
    ((definedIn f).Pairwise fun a b => a.siteBytes ≠ b.siteBytes) ↔
      (definedIn f).Pairwise fun a b => a.kind.MayMeet b.kind → ¬ a.SameSite b := by
  constructor
  · intro h
    exact h.imp_of_mem fun {a b} ha hb hne _ hsite =>
      hne ((siteBytes_eq_iff_sameSite hsize ha hb).mpr hsite)
  · intro h
    have hapart := Language.pairwise_definitions f.1 f.2.content f.2.path
    refine (hapart.imp₂ (fun _ _ => And.intro) h).imp_of_mem fun {a b} ha hb ⟨hmeet, hnot⟩ heq => ?_
    have hsite := (siteBytes_eq_iff_sameSite hsize ha hb).mp heq
    exact hnot (hmeet hsite) hsite

/-- If two paths with their names are one text, one path goes on as the other name starts. -/
theorem exists_rest_of_join_eq {path path' name name' : String} (hne : path ≠ path')
    (h : path ++ ":" ++ name = path' ++ ":" ++ name') :
    (∃ rest, path' = path ++ ":" ++ rest ∧ name = rest ++ ":" ++ name') ∨
      ∃ rest, path = path' ++ ":" ++ rest ∧ name' = rest ++ ":" ++ name := by
  have hlonger : ∀ {path path' name name' : String} {more : List Char}, path ≠ path' →
      path'.toList = path.toList ++ more → ':' :: name.toList = more ++ ':' :: name'.toList →
      ∃ rest, path' = path ++ ":" ++ rest ∧ name = rest ++ ":" ++ name' := by
    intro path path' name name' more hne hpath hname
    cases more with
    | nil => exact absurd (String.toList_inj.mp (by simpa using hpath.symm)) hne
    | cons c more =>
      obtain ⟨rfl, htail⟩ := List.cons.inj hname
      refine ⟨String.ofList more, ?_, ?_⟩
      · rw [← String.toList_inj, hpath]
        simp
      · rw [← String.toList_inj, htail]
        simp
  have hlist : path.toList ++ ':' :: name.toList = path'.toList ++ ':' :: name'.toList := by
    simpa using congrArg String.toList h
  rcases List.append_eq_append_iff.mp hlist with ⟨more, hpath, hname⟩ | ⟨more, hpath, hname⟩
  · exact Or.inl (hlonger hne hpath hname)
  · exact Or.inr (hlonger hne.symm hpath hname)

/-- The name of the definition `a` of `f` goes on like the path of `g` behind that of `f`, a colon and
the definition `b` of `g`, at the same place. -/
structure RunsInto (f g : Language × SourceFile) (a b : Symbol) (rest : String) : Prop where
  path : g.2.path = f.2.path ++ ":" ++ rest
  name : a.name = rest ++ ":" ++ b.name
  position : a.position = b.position

theorem RunsInto.path_ne {rest : String} (h : RunsInto f g a b rest) : f.2.path ≠ g.2.path := by
  intro heq
  have hlength := congrArg String.length (heq.trans h.path)
  simp only [String.length_append] at hlength
  have hcolon : ":".length = 1 := rfl
  omega

theorem RunsInto.join_eq {rest : String} (h : RunsInto f g a b rest) :
    f.2.path ++ ":" ++ a.name = g.2.path ++ ":" ++ b.name := by
  rw [h.path, h.name]
  simp only [String.append_assoc]

/-- In two files the bytes are the same only where one path and name run into the other. -/
theorem siteBytes_eq_iff_runsInto (hsize : byteLength f.2.content.toList < UInt64.size)
    (hsize' : byteLength g.2.content.toList < UInt64.size) (hne : f.2.path ≠ g.2.path)
    (ha : a ∈ definedIn f) (hb : b ∈ definedIn g) :
    a.siteBytes = b.siteBytes ↔ (∃ rest, RunsInto f g a b rest) ∨ ∃ rest, RunsInto g f b a rest := by
  rw [siteBytes_eq_iff hsize hsize' ha hb]
  constructor
  · rintro ⟨htext, hposition⟩
    rcases exists_rest_of_join_eq hne htext with ⟨rest, hpath, hname⟩ | ⟨rest, hpath, hname⟩
    · exact Or.inl ⟨rest, hpath, hname, hposition⟩
    · exact Or.inr ⟨rest, hpath, hname, hposition.symm⟩
  · rintro (⟨rest, h⟩ | ⟨rest, h⟩)
    · exact ⟨h.join_eq, h.position⟩
    · exact ⟨h.join_eq.symm, h.position.symm⟩

end Bytes

/-- The ids of the definitions of files with distinct paths are digests of different bytes exactly if,
first, no method is at the site of a method, a class or a function of its file, and, second, no selector
or event goes on, behind a path and a colon, like the path of another file, a colon and a definition of
that file at the same place. The lengths of the contents, like the numbers of a place, fit into eight
bytes. -/
theorem nodup_siteBytes_iff (files : List (Language × SourceFile))
    (hpaths : (files.map (·.2.path)).Nodup)
    (hsize : ∀ f ∈ files, byteLength f.2.content.toList < UInt64.size) :
    ((files.flatMap definedIn).map Symbol.siteBytes).Nodup ↔
      (∀ f ∈ files, (definedIn f).Pairwise fun a b => a.kind.MayMeet b.kind → ¬ a.SameSite b) ∧
        ∀ f ∈ files, ∀ g ∈ files, ∀ a ∈ definedIn f, a.kind = .selector ∨ a.kind = .event →
          ∀ b ∈ definedIn g, ∀ rest, g.2.path = f.2.path ++ ":" ++ rest →
            a.name = rest ++ ":" ++ b.name → a.position ≠ b.position := by
  rw [List.Nodup, List.pairwise_map, List.pairwise_flatMap]
  refine and_congr (forall₂_congr fun f hf => pairwise_siteBytes_iff (hsize f hf)) ⟨?_, ?_⟩
  · intro hacross f hf g hg a ha _ b hb rest hpath hname hposition
    have hsymm : Std.Symm fun f g : Language × SourceFile =>
        ∀ a ∈ definedIn f, ∀ b ∈ definedIn g, a.siteBytes ≠ b.siteBytes :=
      ⟨fun f g h b hb a ha => (h a ha b hb).symm⟩
    have hinto : RunsInto f g a b rest := ⟨hpath, hname, hposition⟩
    have hne : f ≠ g := fun hsame => hinto.path_ne (by rw [hsame])
    exact hacross.forall hf hg hne a ha b hb
      ((siteBytes_eq_iff_runsInto (hsize f hf) (hsize g hg) hinto.path_ne ha hb).mpr
        (Or.inl ⟨rest, hinto⟩))
  · intro hcolons
    refine (List.pairwise_map.mp hpaths).imp_of_mem fun {f g} hf hg hne a ha b hb heq => ?_
    rcases (siteBytes_eq_iff_runsInto (hsize f hf) (hsize g hg) hne ha hb).mp heq with
      ⟨rest, h⟩ | ⟨rest, h⟩
    · exact hcolons f hf g hg a ha (kind_of_colon ha (by simp [h.name])) b hb rest h.path h.name
        h.position
    · exact hcolons g hg f hf b hb (kind_of_colon hb (by simp [h.name])) a ha rest h.path h.name
        h.position

/-- A function and a selector in two files. -/
def plainFiles : List (Language × SourceFile) :=
  [(.javascript, ⟨"a.js", "function f() \x7b\x7d\n"⟩), (.css, ⟨"b.css", ".c:hover \x7b\x7d\n"⟩)]

theorem nodup_siteBytes_plainFiles :
    ((plainFiles.flatMap definedIn).map Symbol.siteBytes).Nodup ∧
      (plainFiles.flatMap definedIn).length = 2 := by
  refine ⟨(nodup_siteBytes_iff plainFiles (by decide) (by decide)).mpr ⟨by decide +kernel, ?_⟩,
    by decide +kernel⟩
  intro f hf g hg a ha hkind b hb rest hpath
  have hcolon : ':' ∈ g.2.path.toList := by simp [hpath]
  have hnone : ∀ g ∈ plainFiles, ':' ∉ g.2.path.toList := by decide
  exact absurd hcolon (hnone g hg)

/-- A line of text before the code that reads like the head of a class; the class below it has one
method. -/
def doubledMethod : Language × SourceFile :=
  (.php, ⟨"a.php", "class notes\n<?php\nclass B \x7b\n    function m() \x7b\x7d\n\x7d\n"⟩)

/-- Two files in which a path and a name come out as one text. -/
def runTogether : List (Language × SourceFile) :=
  [(.css, ⟨"a.css", "b.css:.c \x7b\x7d\n"⟩), (.css, ⟨"a.css:b.css", ".c \x7b\x7d\n"⟩)]

/-- The method is read for both heads, and the two selectors have the same bytes. -/
theorem siteBytes_not_nodup :
    ¬ (([doubledMethod].flatMap definedIn).map Symbol.siteBytes).Nodup ∧
      (runTogether.map (·.2.path)).Nodup ∧
      ¬ ((runTogether.flatMap definedIn).map Symbol.siteBytes).Nodup := by
  refine ⟨fun h => ?_, by decide, by decide +kernel⟩
  rw [List.flatMap_singleton] at h
  have hread := ((List.mergeSort_perm _ _).map Symbol.siteBytes).nodup_iff.mp h
  revert hread
  decide +kernel

end Concordance
