import Concordance.Proofs.Source.Position
import Concordance.Proofs.Text.Occurrence

/-!
Two texts that share their ends or their starts.

`Tied` texts agree from behind a mark on, which ends what they need not share; `Forked` texts agree up
to a head, with which the rest of each starts. What is asked of the end of a text, or of its start,
comes out the same for both as long as neither marks nor heads are asked for.

Main statements: `Tied.endsWithWord_eq`, `Tied.lastLine`, `Forked.isPrefixOf_eq` and the lemmas that
cutting and trimming keep both relations.
-/

namespace Concordance

namespace Text

section Tied

variable {marks front front' : List Char}

/-- The texts end alike: from their starts on, or from behind the same one of the marks. -/
def Tied (marks front front' : List Char) : Prop :=
  ∃ lead lead' last, front = lead ++ last ∧ front' = lead' ++ last ∧
    ((lead = [] ∧ lead' = []) ∨ ∃ m ∈ marks, lead.getLast? = some m ∧ lead'.getLast? = some m)

theorem Tied.nil (marks : List Char) : Tied marks [] [] :=
  ⟨[], [], [], rfl, rfl, Or.inl ⟨rfl, rfl⟩⟩

theorem Tied.of_getLast? {m : Char} (hm : m ∈ marks) (hfront : front.getLast? = some m)
    (hfront' : front'.getLast? = some m) : Tied marks front front' :=
  ⟨front, front', [], (List.append_nil _).symm, (List.append_nil _).symm,
    Or.inr ⟨m, hm, hfront, hfront'⟩⟩

theorem Tied.symm (h : Tied marks front front') : Tied marks front' front := by
  obtain ⟨lead, lead', last, hfront, hfront', hlead⟩ := h
  exact ⟨lead', lead, last, hfront', hfront,
    hlead.imp And.symm fun ⟨m, hm, hlast, hlast'⟩ => ⟨m, hm, hlast', hlast⟩⟩

theorem Tied.append (h : Tied marks front front') (more : List Char) :
    Tied marks (front ++ more) (front' ++ more) := by
  obtain ⟨lead, lead', last, rfl, rfl, hlead⟩ := h
  exact ⟨lead, lead', last ++ more, List.append_assoc .., List.append_assoc .., hlead⟩

theorem Tied.getLast?_eq (h : Tied marks front front') : front'.getLast? = front.getLast? := by
  obtain ⟨lead, lead', last, rfl, rfl, hlead⟩ := h
  rw [List.getLast?_append, List.getLast?_append]
  rcases hlead with ⟨rfl, rfl⟩ | ⟨m, -, hlast, hlast'⟩
  · rfl
  · rw [hlast, hlast']

/-- A word without the marks stands at the end of both or of none. -/
theorem Tied.exists_of_suffix {word : List Char} (hword : ∀ m ∈ marks, m ∉ word)
    (h : Tied marks front front') (hsuffix : word <:+ front) :
    ∃ rest rest', front = rest ++ word ∧ front' = rest' ++ word ∧ Tied marks rest rest' := by
  obtain ⟨lead, lead', last, rfl, rfl, hlead⟩ := h
  obtain ⟨rest, hrest⟩ := hsuffix
  rcases List.append_eq_append_iff.mp hrest with ⟨mid, rfl, rfl⟩ | ⟨mid, rfl, rfl⟩
  · -- the word would reach over the end of what the texts need not share
    rcases List.eq_nil_or_concat' mid with rfl | ⟨mid, m, rfl⟩
    · exact ⟨rest, lead', by simp, by simp, ⟨rest, lead', [], by simp, by simp, by simpa using hlead⟩⟩
    · rcases hlead with ⟨hnil, -⟩ | ⟨m', hm', hlast, -⟩
      · simp at hnil
      · rw [← List.append_assoc, List.getLast?_concat, Option.some.injEq] at hlast
        subst hlast
        exact absurd (by simp) (hword m hm')
  · exact ⟨lead ++ mid, lead' ++ mid, by simp, by simp, ⟨lead, lead', mid, rfl, rfl, hlead⟩⟩

theorem Tied.isSuffixOf_eq {word : List Char} (hword : ∀ m ∈ marks, m ∉ word)
    (h : Tied marks front front') : word.isSuffixOf front' = word.isSuffixOf front := by
  rw [Bool.eq_iff_iff, List.isSuffixOf_iff_suffix, List.isSuffixOf_iff_suffix]
  constructor
  · intro hsuffix
    obtain ⟨-, rest, -, rfl, -⟩ := h.symm.exists_of_suffix hword hsuffix
    exact ⟨rest, rfl⟩
  · intro hsuffix
    obtain ⟨-, rest, -, rfl, -⟩ := h.exists_of_suffix hword hsuffix
    exact ⟨rest, rfl⟩

theorem Tied.endsWithWord_eq {word : List Char} (hword : ∀ m ∈ marks, m ∉ word)
    (h : Tied marks front front') : endsWithWord word front' = endsWithWord word front := by
  by_cases hsuffix : word <:+ front
  · obtain ⟨rest, rest', rfl, rfl, hrest⟩ := h.exists_of_suffix hword hsuffix
    simp only [endsWithWord, stripBack?_append, hrest.getLast?_eq]
  · have hsuffix' : ¬ word <:+ front' := by
      have hsame := h.isSuffixOf_eq hword
      rw [Bool.eq_iff_iff, List.isSuffixOf_iff_suffix, List.isSuffixOf_iff_suffix] at hsame
      exact fun h => hsuffix (hsame.mp h)
    simp only [endsWithWord, stripBack?_eq_none_iff.mpr hsuffix,
      stripBack?_eq_none_iff.mpr hsuffix']

theorem Tied.dropTail {f : Char → Bool} (hf : ∀ m ∈ marks, f m = false)
    (h : Tied marks front front') : Tied marks (dropTail f front) (dropTail f front') := by
  obtain ⟨lead, lead', last, rfl, rfl, hlead⟩ := h
  have hkept : ∀ {text : List Char} {m : Char}, text.getLast? = some m → f m = false →
      Text.dropTail f text = text := by
    intro text m hlast hm
    obtain ⟨rest, rfl⟩ := List.getLast?_eq_some_iff.mp hlast
    exact List.rdropWhile_concat_neg f rest m (by simp [hm])
  induction last using List.reverseRecOn with
  | nil =>
    simp only [List.append_nil]
    rcases hlead with ⟨rfl, rfl⟩ | ⟨m, hm, hlast, hlast'⟩
    · exact .nil marks
    · rw [hkept hlast (hf m hm), hkept hlast' (hf m hm)]
      exact .of_getLast? hm hlast hlast'
  | append_singleton last c ih =>
    rw [← List.append_assoc, ← List.append_assoc]
    by_cases hc : f c = true
    · have hdrop : ∀ text, Text.dropTail f (text ++ [c]) = Text.dropTail f text :=
        fun text => List.rdropWhile_concat_pos f text c hc
      rw [hdrop, hdrop]
      exact ih
    · rw [Bool.not_eq_true] at hc
      rw [hkept List.getLast?_concat hc, hkept List.getLast?_concat hc]
      exact ⟨lead, lead', last ++ [c], by simp, by simp, hlead⟩

theorem Tied.dropLast (hlast : ∀ m ∈ marks, front.getLast? ≠ some m)
    (h : Tied marks front front') : Tied marks front.dropLast front'.dropLast := by
  obtain ⟨lead, lead', last, rfl, rfl, hlead⟩ := h
  by_cases hnil : last = []
  · subst hnil
    rcases hlead with ⟨rfl, rfl⟩ | ⟨m, hm, hlead, -⟩
    · exact .nil marks
    · exact absurd (by rwa [List.append_nil]) (hlast m hm)
  · rw [List.dropLast_append_of_ne_nil hnil, List.dropLast_append_of_ne_nil hnil]
    exact ⟨lead, lead', last.dropLast, rfl, rfl, hlead⟩

/-- On a line only a slash is left of the marks. -/
theorem Tied.lastLine (h : Tied ['/', '\n'] front front') :
    Tied ['/'] (lastLine front) (lastLine front') := by
  obtain ⟨lead, lead', last, rfl, rfl, hlead⟩ := h
  by_cases hline : '\n' ∈ last
  · rw [lastLine_append_of_mem hline, lastLine_append_of_mem hline]
    exact ⟨[], [], _, rfl, rfl, Or.inl ⟨rfl, rfl⟩⟩
  · rw [lastLine_append_of_notMem hline, lastLine_append_of_notMem hline]
    refine Tied.append ?_ last
    have hend : ∀ {text : List Char}, text.getLast? = some '/' →
        (Text.lastLine text).getLast? = some '/' := by
      intro text htext
      obtain ⟨rest, rfl⟩ := List.getLast?_eq_some_iff.mp htext
      rw [lastLine_append_of_notMem (by decide), List.getLast?_concat]
    have hbreak : ∀ {text : List Char}, text.getLast? = some '\n' → Text.lastLine text = [] := by
      intro text htext
      obtain ⟨rest, rfl⟩ := List.getLast?_eq_some_iff.mp htext
      exact lastLine_newline rest
    rcases hlead with ⟨rfl, rfl⟩ | ⟨m, hm, hlast, hlast'⟩
    · exact .nil _
    · simp only [List.mem_cons, List.not_mem_nil, or_false] at hm
      rcases hm with rfl | rfl
      · exact .of_getLast? List.mem_cons_self (hend hlast) (hend hlast')
      · rw [hbreak hlast, hbreak hlast']
        exact .nil _

end Tied

section Forked

variable {heads back back' : List Char} {f : Char → Bool}

/-- The texts start alike: up to their ends, or up to one of the heads in each. -/
def Forked (heads back back' : List Char) : Prop :=
  ∃ first rest rest', back = first ++ rest ∧ back' = first ++ rest' ∧
    ((rest = [] ∧ rest' = []) ∨
      (∃ c ∈ heads, rest.head? = some c) ∧ ∃ c ∈ heads, rest'.head? = some c)

theorem Forked.symm (h : Forked heads back back') : Forked heads back' back := by
  obtain ⟨first, rest, rest', hback, hback', hrest⟩ := h
  exact ⟨first, rest', rest, hback', hback, hrest.imp And.symm And.symm⟩

theorem Forked.cons (c : Char) (h : Forked heads back back') :
    Forked heads (c :: back) (c :: back') := by
  obtain ⟨first, rest, rest', rfl, rfl, hrest⟩ := h
  exact ⟨c :: first, rest, rest', rfl, rfl, hrest⟩

theorem Forked.nil (heads : List Char) : Forked heads [] [] :=
  ⟨[], [], [], rfl, rfl, Or.inl ⟨rfl, rfl⟩⟩

theorem Forked.of_head? (h : ∃ c ∈ heads, back.head? = some c)
    (h' : ∃ c ∈ heads, back'.head? = some c) : Forked heads back back' :=
  ⟨[], back, back', rfl, rfl, Or.inr ⟨h, h'⟩⟩

theorem Forked.takeWhile (hf : ∀ c ∈ heads, f c = true) (h : Forked heads back back') :
    Forked heads (back.takeWhile f) (back'.takeWhile f) := by
  obtain ⟨first, rest, rest', rfl, rfl, hrest⟩ := h
  have hkept : ∀ {text : List Char}, (∃ c ∈ heads, text.head? = some c) →
      ∃ c ∈ heads, (text.takeWhile f).head? = some c := by
    rintro text ⟨c, hc, hhead⟩
    obtain ⟨more, rfl⟩ := List.head?_eq_some_iff.mp hhead
    exact ⟨c, hc, by rw [List.takeWhile_cons_of_pos (hf c hc), List.head?_cons]⟩
  induction first with
  | nil =>
    rcases hrest with ⟨rfl, rfl⟩ | ⟨hhead, hhead'⟩
    · exact .nil heads
    · exact .of_head? (hkept hhead) (hkept hhead')
  | cons c first ih =>
    by_cases hc : f c = true
    · simp only [List.cons_append, List.takeWhile_cons_of_pos hc]
      exact ih.cons c
    · simp only [List.cons_append, List.takeWhile_cons_of_neg hc]
      exact .nil heads

theorem Forked.dropWhile (hf : ∀ c ∈ heads, f c = false) (h : Forked heads back back') :
    Forked heads (back.dropWhile f) (back'.dropWhile f) := by
  obtain ⟨first, rest, rest', rfl, rfl, hrest⟩ := h
  have hkept : ∀ {text : List Char}, (∃ c ∈ heads, text.head? = some c) →
      text.dropWhile f = text := by
    rintro text ⟨c, hc, hhead⟩
    obtain ⟨more, rfl⟩ := List.head?_eq_some_iff.mp hhead
    exact List.dropWhile_cons_of_neg (by simp [hf c hc])
  induction first with
  | nil =>
    rcases hrest with ⟨rfl, rfl⟩ | ⟨hhead, hhead'⟩
    · exact .nil heads
    · rw [List.nil_append, List.nil_append, hkept hhead, hkept hhead']
      exact .of_head? hhead hhead'
  | cons c first ih =>
    by_cases hc : f c = true
    · simp only [List.cons_append, List.dropWhile_cons_of_pos hc]
      exact ih
    · simp only [List.cons_append, List.dropWhile_cons_of_neg hc]
      exact ⟨c :: first, rest, rest', rfl, rfl, hrest⟩

theorem Forked.dropTail (hf : ∀ c ∈ heads, f c = false) (h : Forked heads back back') :
    Forked heads (dropTail f back) (dropTail f back') := by
  obtain ⟨first, rest, rest', rfl, rfl, ⟨rfl, rfl⟩ | ⟨⟨c, hc, hhead⟩, ⟨c', hc', hhead'⟩⟩⟩ := h
  · exact ⟨_, [], [], (List.append_nil _).symm, (List.append_nil _).symm, Or.inl ⟨rfl, rfl⟩⟩
  · obtain ⟨more, rfl⟩ := List.head?_eq_some_iff.mp hhead
    obtain ⟨more', rfl⟩ := List.head?_eq_some_iff.mp hhead'
    have hdrop : ∀ {c : Char} (more : List Char), f c = false →
        Text.dropTail f (first ++ c :: more) = first ++ c :: Text.dropTail f more := by
      intro c more hfc
      induction more using List.reverseRecOn with
      | nil => exact List.rdropWhile_concat_neg f first c (by simp [hfc])
      | append_singleton more d ih =>
        rw [← List.cons_append, ← List.append_assoc]
        by_cases hd : f d = true
        · have hskip : ∀ text, Text.dropTail f (text ++ [d]) = Text.dropTail f text :=
            fun text => List.rdropWhile_concat_pos f text d hd
          rw [hskip, hskip, ih]
        · have hkeep : ∀ text, Text.dropTail f (text ++ [d]) = text ++ [d] :=
            fun text => List.rdropWhile_concat_neg f text d hd
          rw [hkeep, hkeep, List.append_assoc, List.cons_append]
    rw [hdrop more (hf c hc), hdrop more' (hf c' hc')]
    exact ⟨first, _, _, rfl, rfl, Or.inr ⟨⟨c, hc, rfl⟩, ⟨c', hc', rfl⟩⟩⟩

/-- A word without the heads stands at the start of both or of none. -/
theorem Forked.isPrefixOf_eq {word : List Char} (hword : ∀ c ∈ heads, c ∉ word)
    (h : Forked heads back back') : word.isPrefixOf back' = word.isPrefixOf back := by
  have hpass : ∀ {back back' : List Char}, Forked heads back back' → word <+: back →
      word <+: back' := by
    rintro back back' ⟨first, rest, rest', rfl, rfl, hrest⟩ ⟨more, hmore⟩
    rcases List.append_eq_append_iff.mp hmore with ⟨mid, rfl, -⟩ | ⟨mid, rfl, rfl⟩
    · exact ⟨mid ++ rest', by simp⟩
    · cases mid with
      | nil => exact ⟨rest', by simp⟩
      | cons d mid =>
        rcases hrest with ⟨hnil, -⟩ | ⟨⟨c, hc, hhead⟩, -⟩
        · cases hnil
        · obtain rfl : d = c := Option.some.inj hhead
          exact absurd (by simp) (hword d hc)
  rw [Bool.eq_iff_iff, List.isPrefixOf_iff_prefix, List.isPrefixOf_iff_prefix]
  exact ⟨hpass h.symm, hpass h⟩

theorem Forked.head?_eq_some_iff {c : Char} (hc : c ∉ heads) (h : Forked heads back back') :
    back'.head? = some c ↔ back.head? = some c := by
  have hsame : [c].isPrefixOf back' = [c].isPrefixOf back := h.isPrefixOf_eq fun d hd hmem =>
    hc (List.mem_singleton.mp hmem ▸ hd)
  have hstarts : ∀ text : List Char, text.head? = some c ↔ [c].isPrefixOf text = true := by
    intro text
    cases text with
    | nil => simp
    | cons d text => simpa using eq_comm
  rw [hstarts, hstarts, hsame]

theorem Forked.edge_eq (hf : ∀ c ∈ heads, f c = false) (h : Forked heads back back') :
    edge f back'.head? = edge f back.head? := by
  obtain ⟨first, rest, rest', rfl, rfl, hrest⟩ := h
  cases first with
  | nil =>
    rcases hrest with ⟨rfl, rfl⟩ | ⟨⟨c, hc, hhead⟩, ⟨c', hc', hhead'⟩⟩
    · rfl
    · simp [hhead, hhead', edge, hf c hc, hf c' hc']
  | cons c first => rfl

end Forked

end Text

end Concordance
