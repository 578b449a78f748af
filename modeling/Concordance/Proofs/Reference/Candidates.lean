import Concordance.Proofs.Pattern.Match
import Concordance.Reading

/-!
Where the candidates for uses start: always between two characters of the text, whatever the name
that is looked for.

Main statement: `Language.onBoundary_of_mem_candidates`. A candidate is an occurrence of a name, a
group of a match, or a place within the text of such a group.
-/

namespace Concordance

open Text

namespace Text

section Offsets

variable {mark name text : List Char} {offset : Nat}

/-- An occurrence starts at a place of the text, also if nothing is looked for. -/
theorem offset_of_mem_occurrencesFrom {skip : Nat} {before : Option Char} {o : Occurrence}
    (h : o ∈ occurrencesFrom mark skip before offset text) :
    ∃ pre post, text = pre ++ post ∧ o.offset = offset + byteLength pre := by
  induction text generalizing skip before offset with
  | nil =>
    cases skip <;>
    · simp only [occurrencesFrom] at h
      split at h
      · obtain rfl := List.mem_singleton.mp h
        exact ⟨[], [], rfl, rfl⟩
      · simp at h
  | cons c cs ih =>
    have hlater : ∀ {skip : Nat},
        o ∈ occurrencesFrom mark skip (some c) (offset + c.utf8Size) cs →
        ∃ pre post, c :: cs = pre ++ post ∧ o.offset = offset + byteLength pre := by
      intro skip h
      obtain ⟨pre, post, rfl, hoffset⟩ := ih h
      exact ⟨c :: pre, post, rfl, by rw [hoffset, byteLength_cons, Nat.add_assoc]⟩
    cases skip with
    | succ skip => exact hlater h
    | zero =>
      unfold occurrencesFrom at h
      split at h
      · rcases List.mem_cons.mp h with rfl | h
        · exact ⟨[], c :: cs, rfl, rfl⟩
        · exact hlater h
      · exact hlater h

/-- Occurrences are met from the left to the right. -/
theorem pairwise_occurrencesFrom (mark : List Char) (skip : Nat) (before : Option Char)
    (offset : Nat) (text : List Char) :
    (occurrencesFrom mark skip before offset text).Pairwise fun o o' => o.offset < o'.offset := by
  induction text generalizing skip before offset with
  | nil =>
    cases skip <;>
    · simp only [occurrencesFrom]
      split
      · exact List.pairwise_singleton _ _
      · exact List.Pairwise.nil
  | cons c cs ih =>
    cases skip with
    | succ skip => exact ih ..
    | zero =>
      simp only [occurrencesFrom]
      split
      · refine List.pairwise_cons.mpr ⟨fun o ho => ?_, ih ..⟩
        obtain ⟨pre, post, -, hoffset⟩ := offset_of_mem_occurrencesFrom ho
        have hsize := c.utf8Size_pos
        change offset < o.offset
        omega
      · exact ih ..

theorem pairwise_wordOffsets (name text : List Char) :
    (wordOffsets name text).Pairwise (· < ·) := by
  unfold wordOffsets wholeOccurrences
  split
  · exact List.Pairwise.nil
  · exact List.pairwise_map.mpr ((pairwise_occurrencesFrom name 0 none 0 text).filter _)

theorem onBoundary_of_mem_occurrences {o : Occurrence} (h : o ∈ occurrences mark text) :
    onBoundary o.offset text = true := by
  obtain ⟨pre, post, rfl, hoffset⟩ := offset_of_mem_occurrencesFrom h
  rw [hoffset, Nat.zero_add]
  exact onBoundary_byteLength pre post

theorem onBoundary_of_mem_wholeOccurrences {o : Occurrence} (h : o ∈ wholeOccurrences name text) :
    onBoundary o.offset text = true := by
  unfold wholeOccurrences at h
  split at h
  · cases h
  · exact onBoundary_of_mem_occurrences (List.mem_filter.mp h).1

theorem onBoundary_of_mem_wordOffsets (h : offset ∈ wordOffsets name text) :
    onBoundary offset text = true := by
  obtain ⟨o, ho, rfl⟩ := List.mem_map.mp h
  exact onBoundary_of_mem_wholeOccurrences ho

/-- A word starts at a place of the text. -/
theorem offset_of_mem_wordsFrom {word : Nat × List Char} (h : word ∈ wordsFrom offset text) :
    ∃ pre post, text = pre ++ post ∧ word.1 = offset + byteLength pre := by
  induction text generalizing offset word with
  | nil => cases h
  | cons c cs ih =>
    have hlater : ∀ {word : Nat × List Char}, word ∈ wordsFrom (offset + c.utf8Size) cs →
        ∃ pre post, c :: cs = pre ++ post ∧ word.1 = offset + byteLength pre := by
      intro word h
      obtain ⟨pre, post, rfl, hoffset⟩ := ih h
      exact ⟨c :: pre, post, rfl, by rw [hoffset, byteLength_cons, Nat.add_assoc]⟩
    have hhere : ∀ {rest : List (Nat × List Char)} {first : List Char},
        rest ⊆ wordsFrom (offset + c.utf8Size) cs → word ∈ (offset, first) :: rest →
        ∃ pre post, c :: cs = pre ++ post ∧ word.1 = offset + byteLength pre := by
      intro rest first hrest h
      rcases List.mem_cons.mp h with rfl | h
      · exact ⟨[], c :: cs, rfl, rfl⟩
      · exact hlater (hrest h)
    simp only [wordsFrom] at h
    split at h
    · exact hlater h
    · split at h
      · next hwords =>
        split at h
        · exact hhere (List.Subset.refl _) h
        · refine hhere ?_ h
          rw [hwords]
          exact List.subset_cons_self _ _
      · exact hhere (List.Subset.refl _) h

end Offsets

end Text

section Values

variable {name value : List Char} {i : Nat}

theorem onBoundary_of_mem_tokenOffsets (h : i ∈ tokenOffsets name value) :
    onBoundary i value = true := by
  unfold tokenOffsets at h
  split at h
  · cases h
  · obtain ⟨o, ho, rfl⟩ := List.mem_map.mp h
    exact onBoundary_of_mem_occurrences (List.mem_filter.mp ho).1

theorem pairwise_tokenOffsets (token text : List Char) :
    (tokenOffsets token text).Pairwise (· < ·) := by
  unfold tokenOffsets
  split
  · exact List.Pairwise.nil
  · exact List.pairwise_map.mpr ((pairwise_occurrencesFrom token 0 none 0 text).filter _)

theorem onBoundary_of_classOffset? (h : classOffset? name value = some i) :
    onBoundary i value = true := by
  obtain ⟨word, hword, rfl⟩ := Option.map_eq_some_iff.mp h
  obtain ⟨pre, post, rfl, hoffset⟩ := offset_of_mem_wordsFrom (List.mem_of_find?_eq_some hword)
  rw [hoffset, Nat.zero_add]
  exact onBoundary_byteLength pre post

theorem onBoundary_of_trimmedOffset? (h : trimmedOffset? name value = some i) :
    onBoundary i value = true := by
  unfold trimmedOffset? at h
  split at h
  · obtain rfl := Option.some.inj h
    have hsplit : value.takeWhile isBlank ++ trimStart value = value :=
      List.takeWhile_append_dropWhile
    refine onBoundary_iff.mpr ⟨value.takeWhile isBlank, trimStart value, hsplit.symm, ?_⟩
    have hlength := congrArg byteLength hsplit
    rw [byteLength_append] at hlength
    omega
  · cases h

end Values

section Shared

variable {s : SourceText} {c : Candidate}

theorem eq_some_of_orElse {α : Type} {o o' : Option α} {a : α} (h : (o <|> o') = some a) :
    o = some a ∨ o' = some a := by
  cases o with
  | none => exact Or.inr h
  | some b => exact Or.inl h

theorem onBoundary_of_mem_quotedOffsets {quotes name : List Char} {offset : Nat}
    (h : offset ∈ quotedOffsets s quotes name) : onBoundary offset s.chars = true := by
  obtain ⟨o, ho, hoffset⟩ := List.mem_filterMap.mp h
  split at hoffset
  · split at hoffset
    · obtain rfl := Option.some.inj hoffset
      exact onBoundary_of_mem_occurrences ho
    · cases hoffset
  · cases hoffset

theorem onBoundary_of_mem_markupCandidates {key : SelectorKey} (h : c ∈ markupCandidates s key) :
    onBoundary c.start s.chars = true := by
  obtain ⟨m, hm, hc⟩ := List.mem_filterMap.mp h
  obtain ⟨-, hgroups⟩ := Pattern.onBoundary_of_mem_searchAll hm
  split at hc
  · next named g hnamed hg =>
    obtain ⟨offset, hoffset, rfl⟩ := Option.map_eq_some_iff.mp hc
    have hstart : onBoundary g.start s.chars = true := by
      rcases eq_some_of_orElse hg with hg | hg
      · exact hgroups 2 g hg
      · exact hgroups 3 g hg
    suffices hvalue : onBoundary offset (s.slice g.start g.stop) = true from
      onBoundary_add_slice hstart hvalue
    split at hoffset
    · exact onBoundary_of_trimmedOffset? hoffset
    · exact onBoundary_of_classOffset? hoffset
    · cases hoffset
  · cases hc

end Shared

variable {s : SourceText} {symbol : Symbol} {c : Candidate}

namespace Php

theorem onBoundary_of_mem_inclusions (h : c ∈ inclusions s symbol) :
    onBoundary c.start s.chars = true := by
  obtain ⟨m, hm, hc⟩ := List.mem_filterMap.mp h
  obtain ⟨g, hg, hc⟩ := Option.bind_eq_some_iff.mp hc
  split at hc
  · obtain rfl := Option.some.inj hc
    exact (Pattern.onBoundary_of_mem_searchAll hm).2 1 g hg
  · cases hc

theorem onBoundary_of_mem_candidates (h : c ∈ candidates s symbol) :
    onBoundary c.start s.chars = true := by
  have hname : ∀ {make : Occurrence → Candidate}, (∀ o, (make o).start = o.offset) →
      c ∈ (wholeOccurrences symbol.name.toList s.chars).map make →
      onBoundary c.start s.chars = true := by
    intro make hmake h
    obtain ⟨o, ho, rfl⟩ := List.mem_map.mp h
    rw [hmake]
    exact onBoundary_of_mem_wholeOccurrences ho
  unfold candidates at h
  dsimp only at h
  split at h
  · exact (List.mem_append.mp h).elim onBoundary_of_mem_inclusions (hname fun _ => rfl)
  · exact (List.mem_append.mp h).elim onBoundary_of_mem_inclusions (hname fun _ => rfl)
  · exact hname (fun _ => rfl) h
  · exact hname (fun _ => rfl) h
  · obtain ⟨start, hstart, rfl⟩ := List.mem_map.mp h
    exact onBoundary_of_mem_quotedOffsets hstart
  · split at h
    · exact onBoundary_of_mem_markupCandidates h
    · cases h
  · cases h

end Php

namespace JavaScript

/-- A string argument is a stretch of the text from a place on. -/
theorem exists_of_mem_stringArguments {count offset : Nat} {text : List Char}
    {argument : Nat × List Char} (h : argument ∈ stringArguments count offset text) :
    ∃ pre post n, text = pre ++ post ∧ argument = (offset + byteLength pre, takeBytes n post) := by
  induction count generalizing offset text with
  | zero => cases h
  | succ count ih =>
    simp only [stringArguments] at h
    split at h
    · cases h
    · next m rest hmatch =>
      obtain ⟨d, hd, hm⟩ := Option.map_eq_some_iff.mp hmatch
      obtain ⟨rfl, rfl⟩ := Prod.mk.inj hm
      have hend := List.mem_of_head? hd
      split at h
      · cases h
      · next g hg =>
        rcases List.mem_cons.mp h with rfl | h
        · have hmem : ∃ n, (n, g) ∈ d.groups := by
            rcases eq_some_of_orElse hg with hg | hg
            · exact ⟨1, Pattern.mem_groups_of_group? hg⟩
            · rcases eq_some_of_orElse hg with hg | hg
              · exact ⟨2, Pattern.mem_groups_of_group? hg⟩
              · exact ⟨3, Pattern.mem_groups_of_group? hg⟩
          obtain ⟨n, hn⟩ := hmem
          rcases Pattern.start_of_mem_groups hend (n, g) hn with hk | ⟨taken, e, hreads, hstart⟩
          · cases hk
          · have htext : text = taken ++ e.rest := hreads.rest
            have hoffset : g.start = offset + byteLength taken := hstart.trans hreads.offset
            refine ⟨taken, e.rest, g.stop - offset - byteLength taken, htext, ?_⟩
            rw [hoffset, sliceBytes, Nat.add_sub_cancel_left, htext, dropBytes_byteLength]
        · obtain ⟨taken, hreads⟩ := Pattern.exists_reads_of_mem_ends hend
          obtain ⟨pre, post, n, hrest, rfl⟩ := ih h
          have htext : text = taken ++ d.rest := hreads.rest
          have hoffset : d.offset = offset + byteLength taken := hreads.offset
          refine ⟨taken ++ pre, post, n, by rw [htext, hrest, List.append_assoc], ?_⟩
          rw [byteLength_append, ← Nat.add_assoc, ← hoffset]

theorem onBoundary_of_lookupHit? {mode : LookupMode} {key : SelectorKey} {value : List Char}
    {i size : Nat} (h : lookupHit? mode key value = some (i, size)) : onBoundary i value = true := by
  unfold lookupHit? at h
  split at h
  · obtain ⟨j, hj, hji⟩ := Option.map_eq_some_iff.mp h
    obtain ⟨rfl, -⟩ := Prod.mk.inj hji
    exact onBoundary_of_mem_tokenOffsets (List.mem_of_head? hj)
  · obtain ⟨j, hj, hji⟩ := Option.map_eq_some_iff.mp h
    obtain ⟨rfl, -⟩ := Prod.mk.inj hji
    exact onBoundary_of_classOffset? hj
  · obtain ⟨j, hj, hji⟩ := Option.map_eq_some_iff.mp h
    obtain ⟨rfl, -⟩ := Prod.mk.inj hji
    exact onBoundary_of_trimmedOffset? hj
  · cases h

theorem onBoundary_of_mem_selectorCandidates {key : SelectorKey}
    (h : c ∈ selectorCandidates s key) : onBoundary c.start s.chars = true := by
  rcases List.mem_append.mp h with h | h
  · obtain ⟨m, hm, hc⟩ := List.mem_flatMap.mp h
    obtain ⟨hstop, -⟩ := Pattern.onBoundary_of_mem_searchAll hm
    split at hc
    · cases hc
    · obtain ⟨argument, hargument, hc⟩ := List.mem_filterMap.mp hc
      obtain ⟨⟨i, size⟩, hhit, rfl⟩ := Option.map_eq_some_iff.mp hc
      obtain ⟨pre, post, n, htext, rfl⟩ := exists_of_mem_stringArguments hargument
      have hvalue : onBoundary i post = true :=
        onBoundary_of_takeBytes (onBoundary_of_lookupHit? hhit)
      have hrest : onBoundary (byteLength pre + i) (dropBytes m.span.stop s.chars) = true := by
        rw [htext]
        exact onBoundary_add (onBoundary_byteLength pre post) (by rwa [dropBytes_byteLength])
      have hadd := onBoundary_add hstop hrest
      rwa [← Nat.add_assoc] at hadd
  · exact onBoundary_of_mem_markupCandidates h

theorem onBoundary_of_mem_candidates (h : c ∈ candidates s symbol) :
    onBoundary c.start s.chars = true := by
  have hname : ∀ {make : Nat → Candidate}, (∀ start, (make start).start = start) →
      c ∈ (wordOffsets symbol.name.toList s.chars).map make →
      onBoundary c.start s.chars = true := by
    intro make hmake h
    obtain ⟨start, hstart, rfl⟩ := List.mem_map.mp h
    rw [hmake]
    exact onBoundary_of_mem_wordOffsets hstart
  unfold candidates at h
  dsimp only at h
  split at h
  · exact hname (fun _ => rfl) h
  · exact hname (fun _ => rfl) h
  · exact hname (fun _ => rfl) h
  · obtain ⟨start, hstart, rfl⟩ := List.mem_map.mp h
    exact onBoundary_of_mem_quotedOffsets hstart
  · split at h
    · exact onBoundary_of_mem_selectorCandidates h
    · cases h
  · obtain ⟨start, hstart, rfl⟩ := List.mem_map.mp h
    exact onBoundary_of_mem_tokenOffsets hstart
  · cases h

end JavaScript

namespace Stylesheet

theorem onBoundary_of_mem_extensions {key : SelectorKey} (h : c ∈ extensions s key) :
    onBoundary c.start s.chars = true := by
  obtain ⟨m, hm, hc⟩ := List.mem_flatMap.mp h
  split at hc
  · cases hc
  · next g hg =>
    obtain ⟨i, hi, rfl⟩ := List.mem_map.mp hc
    exact onBoundary_add_slice ((Pattern.onBoundary_of_mem_searchAll hm).2 1 g hg)
      (onBoundary_of_mem_tokenOffsets hi)

theorem onBoundary_of_mem_candidates (h : c ∈ candidates s symbol) :
    onBoundary c.start s.chars = true := by
  unfold candidates at h
  dsimp only at h
  split at h
  · split at h
    · exact onBoundary_of_mem_extensions h
    · cases h
  · obtain ⟨start, hstart, rfl⟩ := List.mem_map.mp h
    exact onBoundary_of_mem_tokenOffsets hstart
  · cases h

end Stylesheet

/-- A candidate starts between two characters of the text. -/
theorem Language.onBoundary_of_mem_candidates {language : Language}
    (h : c ∈ language.candidates s symbol) : onBoundary c.start s.chars = true := by
  cases language with
  | php => exact Php.onBoundary_of_mem_candidates h
  | javascript => exact JavaScript.onBoundary_of_mem_candidates h
  | css => exact Stylesheet.onBoundary_of_mem_candidates h

end Concordance
