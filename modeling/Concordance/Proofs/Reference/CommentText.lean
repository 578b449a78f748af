import Mathlib.Data.List.Sort
import Concordance.Proofs.Pattern.Division
import Concordance.Proofs.Reference.PerLine
import Concordance.Proofs.Reference.Verbatim
import Concordance.Proofs.Source.SameCode

/-!
What comments say is nothing to the uses that a search finds, but for the places where the search reads
comments as if they were code.

The lines and kinds of the uses are determined by how each line is used (`map_collectUsages_congr`), and
so it is enough to compare the two texts line by line, for the names and for what is read of the text as
it stands. Main statements: `Occurrence.Same.tied_before` and `Occurrence.Same.forked_after` (what is
asked of the line around a name), `Language.useOn?_candidates` (how a line is used) and
`map_usages_of_sameCode` (the lines and kinds of the uses).
-/

namespace Concordance

open Text

namespace Text

/-- Patterns in a row that read no slash and go on to the end of the text match in both of two tied
texts or in none. -/
theorem Tied.matchesIn_all_eq {ps : List Pattern} (hfloating : (Pattern.all ps).floating = true)
    (hread : ∀ p ∈ ps, p.ReadsOnly (· ≠ '/')) (hlast : ps.getLast? = some .textEnd)
    {front front' : List Char} (h : Tied ['/'] front front') :
    (Pattern.all ps).matchesIn front' = (Pattern.all ps).matchesIn front := by
  have hpass : ∀ {front front' : List Char}, Tied ['/'] front front' →
      (Pattern.all ps).matchesIn front = true → (Pattern.all ps).matchesIn front' = true := by
    intro front front' h hmatch
    obtain ⟨passed, rest, htext, hne⟩ := Pattern.matchesIn_iff.mp hmatch
    obtain ⟨d, hd⟩ := List.exists_mem_of_ne_nil _ hne
    have hall : ∀ c ∈ rest, c ≠ '/' := by
      obtain ⟨taken, htaken⟩ := Pattern.exists_reads_of_mem_ends hd
      have hrest : rest = taken := by
        have hrest := htaken.rest
        rwa [Pattern.rest_of_mem_all hlast hd, List.append_nil] at hrest
      subst hrest
      simpa using Pattern.readsOnly_all hread hd _ htaken
    have hends : rest <:+ front := ⟨passed, htext.symm⟩
    obtain ⟨lead, lead', hlead, rfl, hsame⟩ := h.exists_of_suffix
      (fun m hm hmem => hall m hmem (List.mem_singleton.mp hm)) hends
    obtain rfl : passed = lead := List.append_cancel_right (htext.symm.trans hlead)
    refine Pattern.matchesIn_iff.mpr ⟨lead', rest, rfl, ?_⟩
    -- where the text stands is nothing to the match
    have hshift : ∀ {before : Option Char} (offset : Nat),
        (Pattern.all ps).ends ⟨before, offset, rest, []⟩ = [] ↔
          (Pattern.all ps).ends ⟨before, 0, rest, []⟩ = [] := by
      intro before offset
      have hends : List.Forall₂ (Cursor.Shifted offset)
          ((Pattern.all ps).ends ⟨before, 0, rest, []⟩)
          ((Pattern.all ps).ends ⟨before, offset, rest, []⟩) :=
        Pattern.shifted_ends hfloating ⟨Or.inl rfl, (Nat.zero_add offset).symm, rfl, rfl⟩
      rw [← List.length_eq_zero_iff, ← hends.length_eq, List.length_eq_zero_iff]
    rw [hsame.getLast?_eq, Ne, hshift]
    rwa [Ne, hshift] at hne
  rw [Bool.eq_iff_iff]
  exact ⟨hpass h.symm, hpass h⟩

theorem Forked.mono {heads heads' back back' : List Char} (hheads : heads ⊆ heads')
    (h : Forked heads back back') : Forked heads' back back' := by
  obtain ⟨first, rest, rest', hback, hback', hrest⟩ := h
  exact ⟨first, rest, rest', hback, hback', hrest.imp_right (And.imp
    (fun ⟨c, hc, hhead⟩ => ⟨c, hheads hc, hhead⟩) (fun ⟨c, hc, hhead⟩ => ⟨c, hheads hc, hhead⟩))⟩

end Text

section Uses

variable {s t : SourceText} {path : String} {symbol : Symbol} {cs ds : List Candidate} {line : Nat}

/-- What the candidates outside comments come to: where each of them starts, and its use. -/
def SourceText.usesOutside (s : SourceText) (candidates : List Candidate) :
    List (Nat × Option UsageKind) :=
  (candidates.filter (!s.inComment ·.start)).map fun c => (c.start, c.use? ())

/-- How the line is used: the kind of the first candidate on it that stands in code and is a use. -/
def SourceText.useOn? (s : SourceText) (line : Nat) (candidates : List Candidate) :
    Option UsageKind :=
  (s.usesOutside candidates).findSome? fun use => if s.lineOf use.1 = line then use.2 else none

theorem usesOutside_append (cs ds : List Candidate) :
    s.usesOutside (cs ++ ds) = s.usesOutside cs ++ s.usesOutside ds := by
  rw [SourceText.usesOutside, List.filter_append, List.map_append]
  rfl

theorem useOn?_append (cs ds : List Candidate) :
    s.useOn? line (cs ++ ds) = (s.useOn? line cs).or (s.useOn? line ds) := by
  rw [SourceText.useOn?, usesOutside_append, List.findSome?_append]
  rfl

theorem useOn?_cons (c : Candidate) (cs : List Candidate) :
    s.useOn? line (c :: cs) =
      (if s.inComment c.start = false ∧ s.lineOf c.start = line then c.use? () else none).or
        (s.useOn? line cs) := by
  have hsingle : s.useOn? line [c] =
      if s.inComment c.start = false ∧ s.lineOf c.start = line then c.use? () else none := by
    rw [SourceText.useOn?, SourceText.usesOutside]
    cases hc : s.inComment c.start with
    | true => simp [hc]
    | false => simp [hc]
  rw [← hsingle, ← useOn?_append, List.singleton_append]

theorem map_usageOn? (c : Candidate) (hsite : symbol.isDefinitionSite path line = false) :
    (c.usageOn? s path symbol line).map Usage.kind =
      if s.inComment c.start = false then c.use? () else none := by
  rw [Candidate.usageOn?, hsite, Bool.or_false]
  cases s.inComment c.start with
  | true => rfl
  | false => cases c.use? () <;> rfl

/-- The use that is recorded for a line is of the kind of the first candidate that counts, unless the
line defines the symbol. -/
theorem map_firstUse? (cs : List Candidate) (hsite : symbol.isDefinitionSite path line = false) :
    (firstUse? s path symbol line cs).map Usage.kind = s.useOn? line cs := by
  induction cs with
  | nil => rfl
  | cons c cs ih =>
    rw [useOn?_cons, ← ih]
    by_cases hline : s.lineOf c.start = line
    · subst hline
      rw [firstUse?_cons, Option.map_or, map_usageOn? c hsite]
      simp only [and_true]
    · rw [firstUse?_cons_of_ne hline, if_neg fun h => hline h.2, Option.none_or]

theorem pairwise_collectUsages (s : SourceText) (path : String) (symbol : Symbol)
    (cs : List Candidate) :
    (collectUsages s path symbol cs).Pairwise fun a b => a.position.line < b.position.line := by
  have hsorted : (collectUsages s path symbol cs).Pairwise fun a b =>
      a.position.upTo b.position = true := by
    refine List.pairwise_mergeSort (fun a b c => ?_) (fun a b => ?_) _
    · exact Position.upTo_trans
    · exact Bool.or_eq_true_iff.mpr (Position.upTo_total a.position b.position)
  have hdistinct : (collectUsages s path symbol cs).Pairwise fun a b =>
      a.position.line ≠ b.position.line :=
    (List.Perm.pairwise_iff Ne.symm (List.mergeSort_perm _ _)).mpr (pairwise_firstPerLine [] cs)
  refine hsorted.imp₂ (fun a b hle hne => ?_) hdistinct
  simp only [Position.upTo, Bool.or_eq_true, Bool.and_eq_true, decide_eq_true_eq, beq_iff_eq] at hle
  omega

theorem mem_map_collectUsages_iff {kind : UsageKind} :
    (line, kind) ∈ (collectUsages s path symbol cs).map (fun u => (u.position.line, u.kind)) ↔
      symbol.isDefinitionSite path line = false ∧ s.useOn? line cs = some kind := by
  simp only [List.mem_map, collectUsages, List.mem_mergeSort, mem_firstPerLine_iff,
    List.not_mem_nil, not_false_iff, true_and, Prod.mk.injEq]
  constructor
  · rintro ⟨u, hu, rfl, rfl⟩
    obtain ⟨c, -, hon⟩ := List.exists_of_findSome?_eq_some hu
    have hsite := (Candidate.usageOn?_eq_some hon).2.1
    rw [← map_firstUse? cs hsite, hu]
    exact ⟨hsite, rfl⟩
  · rintro ⟨hsite, huse⟩
    rw [← map_firstUse? cs hsite, Option.map_eq_some_iff] at huse
    obtain ⟨u, hu, rfl⟩ := huse
    obtain rfl := line_of_firstUse? hu
    exact ⟨u, hu, rfl, rfl⟩

/-- Where each line is used alike, the lines and kinds of the uses are the same. -/
theorem map_collectUsages_congr (h : ∀ line, t.useOn? line ds = s.useOn? line cs) :
    (collectUsages t path symbol ds).map (fun u => (u.position.line, u.kind)) =
      (collectUsages s path symbol cs).map fun u => (u.position.line, u.kind) := by
  have : Std.Irrefl fun a b : Nat × UsageKind => a.1 < b.1 := ⟨fun _ => Nat.lt_irrefl _⟩
  have : Std.Antisymm fun a b : Nat × UsageKind => a.1 < b.1 :=
    ⟨fun _ _ hab hba => absurd hab (Nat.lt_asymm hba)⟩
  refine List.Pairwise.eq_of_mem_iff (r := fun a b : Nat × UsageKind => a.1 < b.1)
    (List.pairwise_map.mpr (pairwise_collectUsages t path symbol ds))
    (List.pairwise_map.mpr (pairwise_collectUsages s path symbol cs)) ?_
  rintro ⟨line, kind⟩
  rw [mem_map_collectUsages_iff, mem_map_collectUsages_iff, h]

theorem useOn?_of_usesOutside (h : s.SameCode t) (hout : t.usesOutside ds = s.usesOutside cs)
    (line : Nat) : t.useOn? line ds = s.useOn? line cs := by
  rw [SourceText.useOn?, SourceText.useOn?, hout]
  simp only [h.lineOf]

theorem CandidatesAt.useOn?_eq_some_iff {kind kind' : UsageKind} {place : Nat → Prop}
    (h : CandidatesAt cs kind place) :
    s.useOn? line cs = some kind' ↔
      kind' = kind ∧ ∃ n, place n ∧ s.inComment n = false ∧ s.lineOf n = line := by
  have hfound : ∀ {kind'}, s.useOn? line cs = some kind' →
      kind' = kind ∧ ∃ n, place n ∧ s.inComment n = false ∧ s.lineOf n = line := by
    intro kind' huse
    obtain ⟨use, hmem, huse⟩ := List.exists_of_findSome?_eq_some huse
    obtain ⟨c, hc, rfl⟩ := List.mem_map.mp hmem
    obtain ⟨hc, hcode⟩ := List.mem_filter.mp hc
    obtain ⟨hline, huse⟩ := Option.ite_none_right_eq_some.mp huse
    rw [h.kind c hc, Option.some.injEq] at huse
    exact ⟨huse.symm, c.start, (h.places _).mp (List.mem_map_of_mem hc), by simpa using hcode, hline⟩
  refine ⟨hfound, ?_⟩
  rintro ⟨rfl, n, hn, hcode, hline⟩
  obtain ⟨c, hc, rfl⟩ := List.mem_map.mp ((h.places n).mpr hn)
  cases huse : s.useOn? line cs with
  | some kind => rw [(hfound huse).1]
  | none =>
    have hmem : (c.start, c.use? ()) ∈ s.usesOutside cs :=
      List.mem_map_of_mem (List.mem_filter.mpr ⟨hc, by simpa using hcode⟩)
    have hnone := List.findSome?_eq_none_iff.mp huse _ hmem
    rw [if_pos hline, h.kind c hc] at hnone
    cases hnone

/-- Candidates of one kind at the same places outside comments use the lines alike. -/
theorem CandidatesAt.useOn?_eq {kind : UsageKind} {place place' : Nat → Prop} (h : s.SameCode t)
    (hc : CandidatesAt cs kind place) (hd : CandidatesAt ds kind place')
    (hplaces : ∀ n, s.inComment n = false → (place' n ↔ place n)) (line : Nat) :
    t.useOn? line ds = s.useOn? line cs := by
  ext kind'
  rw [hc.useOn?_eq_some_iff, hd.useOn?_eq_some_iff]
  simp only [h.inComment, h.lineOf]
  refine and_congr_right fun _ => exists_congr fun n => ?_
  constructor
  · rintro ⟨hn, hcode, hline⟩
    exact ⟨(hplaces n hcode).mp hn, hcode, hline⟩
  · rintro ⟨hn, hcode, hline⟩
    exact ⟨(hplaces n hcode).mpr hn, hcode, hline⟩

end Uses

section Around

variable {language : Language} {s t : SourceText} {name : List Char} {o o' : Occurrence}

theorem heads_lexicalRules (language : Language) : language.lexicalRules.heads ⊆ ['/', '#'] := by
  cases language <;> decide

namespace Text.Occurrence.Same

theorem before_eq (h : Same s.rules s.inComment s.chars t.chars name o o') : o'.before = o.before := by
  obtain ⟨front, front', -, -, -, -, hbefore, hbefore', htied⟩ := h.cut
  rw [hbefore, hbefore', htied.getLast?_eq]

/-- On the line, what stands before an occurrence is tied. -/
theorem tied_before (h : Same s.rules s.inComment s.chars t.chars name o o') :
    Tied ['/'] (s.beforeOnLine o.offset) (t.beforeOnLine o'.offset) := by
  obtain ⟨front, front', hs, ht, hfront, hfront', -, -, htied⟩ := h.cut
  rw [h.offset, ← hfront', beforeOnLine_byteLength ht, hfront', ← hfront, beforeOnLine_byteLength hs]
  exact htied.lastLine

theorem forked (hrules : s.rules = language.lexicalRules)
    (h : Same s.rules s.inComment s.chars t.chars name o o') : Forked ['/', '#'] o.after o'.after := by
  have hafter := h.after
  rw [hrules] at hafter
  exact (hafter.forked (usual_lexicalRules language)).mono (heads_lexicalRules language)

/-- On the line, what stands behind an occurrence is forked. -/
theorem forked_after (hrules : s.rules = language.lexicalRules)
    (h : Same s.rules s.inComment s.chars t.chars name o o') :
    Forked ['/', '#'] (s.afterOnLine (o.offset + byteLength name))
      (t.afterOnLine (o'.offset + byteLength name)) := by
  obtain ⟨front, front', hs, ht, hfront, hfront', -⟩ := h.cut
  have hline : ∀ {r : SourceText} {lead rest : List Char}, r.chars = lead ++ (name ++ rest) →
      byteLength lead = o.offset → r.afterOnLine (o.offset + byteLength name) =
        dropTail (· == '\r') (rest.takeWhile (· ≠ '\n')) := by
    intro r lead rest hr hlead
    rw [← hlead, ← byteLength_append]
    exact afterOnLine_byteLength (by rw [hr, List.append_assoc])
  rw [h.offset, hline hs hfront, hline ht hfront']
  exact ((h.forked hrules).takeWhile (by decide)).dropTail (by decide)

/-- What comes next on the line behind an occurrence, after white space. -/
theorem head?_trimStart_eq (hrules : s.rules = language.lexicalRules)
    (h : Same s.rules s.inComment s.chars t.chars name o o') {c : Char} (hc : c ∉ ['/', '#']) :
    ((trimStart (t.afterOnLine (o'.offset + byteLength name))).head? == some c) =
      ((trimStart (s.afterOnLine (o.offset + byteLength name))).head? == some c) := by
  rw [Bool.eq_iff_iff, beq_iff_eq, beq_iff_eq]
  exact ((h.forked_after hrules).dropWhile (by decide)).head?_eq_some_iff hc

theorem isCalled_eq (hrules : s.rules = language.lexicalRules)
    (h : Same s.rules s.inComment s.chars t.chars name o o') :
    isCalled t (o'.offset + byteLength name) = isCalled s (o.offset + byteLength name) :=
  h.head?_trimStart_eq hrules (by decide)

/-- Before a quote on the line, which is no slash, the texts are tied too. -/
theorem tied_beforeQuote (h : Same s.rules s.inComment s.chars t.chars name o o')
    (hquote : o.before ≠ some '/') :
    Tied ['/'] (beforeQuote s o.offset) (beforeQuote t o'.offset) := by
  refine h.tied_before.dropLast ?_
  obtain ⟨front, -, hs, -, hfront, -, hbefore, -⟩ := h.cut
  rw [← hfront, beforeOnLine_byteLength hs]
  rintro m hm hlast
  obtain rfl := List.mem_singleton.mp hm
  have hsuffix : lastLine front <:+ front := List.rtakeWhile_suffix _ front
  obtain ⟨lead, hlead⟩ := hsuffix
  apply hquote
  rw [hbefore, ← hlead, List.getLast?_append, hlast, Option.some_or]

end Text.Occurrence.Same

end Around

section Patterns

theorem readsOnly_blanks : Pattern.blanks.ReadsOnly (· ≠ '/') :=
  Pattern.readsOnly_run fun a ha => by
    rw [decide_eq_true_eq]
    rintro rfl
    exact absurd ha (by decide)

theorem readsOnly_gap : Pattern.gap.ReadsOnly (· ≠ '/') :=
  (Pattern.readsOnly_one fun a ha => by
    rw [decide_eq_true_eq]
    rintro rfl
    exact absurd ha (by decide)).seq readsOnly_blanks

end Patterns

namespace JavaScript

variable {s t : SourceText} {name : List Char} {o o' : Occurrence}

theorem eventUse_eq {front front' : List Char} (h : Tied ['/'] front front') :
    eventUse front' = eventUse front := by
  have hlistens : listens.matchesIn front' = listens.matchesIn front := by
    refine h.matchesIn_all_eq rfl ?_ rfl
    simp only [List.forall_mem_cons, List.not_mem_nil, false_imp_iff, implies_true, and_true]
    exact ⟨Pattern.readsOnly_keyword (by decide), readsOnly_blanks,
      Pattern.readsOnly_literal (by decide), readsOnly_blanks, Pattern.readsOnly_textEnd⟩
  have hfires : fires.matchesIn front' = fires.matchesIn front := by
    refine h.matchesIn_all_eq rfl ?_ rfl
    simp only [List.forall_mem_cons, List.not_mem_nil, false_imp_iff, implies_true, and_true]
    refine ⟨Pattern.readsOnly_oneOf ?_, readsOnly_blanks, Pattern.readsOnly_literal (by decide),
      readsOnly_blanks, Pattern.readsOnly_textEnd⟩
    simp only [List.forall_mem_cons, List.not_mem_nil, false_imp_iff, implies_true, and_true]
    refine ⟨Pattern.readsOnly_all ?_, Pattern.readsOnly_literal (by decide),
      Pattern.readsOnly_literal (by decide), Pattern.readsOnly_literal (by decide)⟩
    simp only [List.forall_mem_cons, List.not_mem_nil, false_imp_iff, implies_true, and_true]
    exact ⟨Pattern.readsOnly_wordEdge, Pattern.readsOnly_literal (by decide), readsOnly_gap,
      (Pattern.readsOnly_literal (by decide)).optional, Pattern.readsOnly_literal (by decide)⟩
  rw [eventUse, eventUse, hlistens, hfires]

section Around

variable (hrules : s.rules = Language.javascript.lexicalRules)
  (h : Occurrence.Same s.rules s.inComment s.chars t.chars name o o')

include hrules h

theorem methodUse?_eq :
    methodUse? t o'.offset (o'.offset + byteLength name) =
      methodUse? s o.offset (o.offset + byteLength name) := by
  rw [methodUse?, methodUse?, h.isCalled_eq hrules, trimEnd, trimEnd,
    (h.tied_before.dropTail (by decide)).getLast?_eq]

theorem functionUse?_eq (hline : onImportLine t o.offset = onImportLine s o.offset) :
    functionUse? t o'.offset (o'.offset + byteLength name) =
      functionUse? s o.offset (o.offset + byteLength name) := by
  have htied : Tied ['/'] (trimEnd (s.beforeOnLine o.offset)) (trimEnd (t.beforeOnLine o'.offset)) :=
    h.tied_before.dropTail (by decide)
  rw [functionUse?, functionUse?, h.isCalled_eq hrules, htied.getLast?_eq,
    htied.endsWithWord_eq (by decide), h.offset, hline]

theorem classUse_eq (hline : onImportLine t o.offset = onImportLine s o.offset) :
    classUse t o'.offset (o'.offset + byteLength name) =
      classUse s o.offset (o.offset + byteLength name) := by
  have htied : Tied ['/'] (trimEnd (s.beforeOnLine o.offset)) (trimEnd (t.beforeOnLine o'.offset)) :=
    h.tied_before.dropTail (by decide)
  have hdot : ((t.afterOnLine (o'.offset + byteLength name)).head? == some '.') =
      ((s.afterOnLine (o.offset + byteLength name)).head? == some '.') := by
    rw [Bool.eq_iff_iff, beq_iff_eq, beq_iff_eq]
    exact (h.forked_after hrules).head?_eq_some_iff (by decide)
  rw [classUse, classUse, hdot, htied.endsWithWord_eq (by decide), htied.endsWithWord_eq (by decide),
    h.offset, hline]

end Around

end JavaScript

namespace Php

variable {s t : SourceText} {name : List Char} {o o' : Occurrence}

theorem firesHook_matchesIn_eq {front front' : List Char} (h : Tied ['/'] front front') :
    firesHook.matchesIn front' = firesHook.matchesIn front := by
  refine h.matchesIn_all_eq rfl ?_ rfl
  simp only [List.forall_mem_cons, List.not_mem_nil, false_imp_iff, implies_true, and_true]
  exact ⟨Pattern.readsOnly_wordEdge, Pattern.readsOnly_keyword (by decide), readsOnly_blanks,
    Pattern.readsOnly_literal (by decide), readsOnly_blanks, Pattern.readsOnly_textEnd⟩

theorem implementsList_matchesIn_eq {front front' : List Char} (h : Tied ['/'] front front') :
    implementsList.matchesIn front' = implementsList.matchesIn front := by
  refine h.matchesIn_all_eq rfl ?_ rfl
  simp only [List.forall_mem_cons, List.not_mem_nil, false_imp_iff, implies_true, and_true]
  refine ⟨Pattern.readsOnly_wordEdge, Pattern.readsOnly_literal (by decide), readsOnly_gap,
    Pattern.readsOnly_run fun a ha => ?_, Pattern.readsOnly_textEnd⟩
  rw [decide_eq_true_eq]
  rintro rfl
  exact absurd ha (by decide)

theorem accessesMember_eq {front front' : List Char} (h : Tied ['/'] front front') :
    accessesMember front' = accessesMember front := by
  rw [accessesMember, accessesMember, h.isSuffixOf_eq (by decide), h.isSuffixOf_eq (by decide)]

section Around

variable (hrules : s.rules = Language.php.lexicalRules)
  (h : Occurrence.Same s.rules s.inComment s.chars t.chars name o o')

include hrules h

theorem isQuoted_eq : isQuoted o' = isQuoted o := by
  have hquote : ∀ q ∉ ['/', '#'], (some q == o'.after.head?) = (some q == o.after.head?) := by
    intro q hq
    rw [Bool.eq_iff_iff, beq_iff_eq, beq_iff_eq, eq_comm, (h.forked hrules).head?_eq_some_iff hq,
      eq_comm]
  rw [isQuoted, isQuoted, h.before_eq]
  by_cases hsingle : o.before = some '\''
  · rw [hsingle, hquote '\'' (by decide)]
  · by_cases hdouble : o.before = some '"'
    · rw [hdouble, hquote '"' (by decide)]
    · rw [beq_false_of_ne hsingle, beq_false_of_ne hdouble]
      rfl

theorem methodUse?_eq :
    methodUse? t o' (o'.offset + byteLength name) = methodUse? s o (o.offset + byteLength name) := by
  have htied : Tied ['/'] (trimEnd (s.beforeOnLine o.offset)) (trimEnd (t.beforeOnLine o'.offset)) :=
    h.tied_before.dropTail (by decide)
  rw [methodUse?, methodUse?, h.isCalled_eq hrules, isQuoted_eq hrules h, accessesMember_eq htied]

theorem functionUse?_eq (hline : onUseLine t o.offset = onUseLine s o.offset) :
    functionUse? t o' (o'.offset + byteLength name) =
      functionUse? s o (o.offset + byteLength name) := by
  have htied : Tied ['/'] (trimEnd (s.beforeOnLine o.offset)) (trimEnd (t.beforeOnLine o'.offset)) :=
    h.tied_before.dropTail (by decide)
  rw [functionUse?, functionUse?, h.isCalled_eq hrules, isQuoted_eq hrules h,
    accessesMember_eq htied, htied.endsWithWord_eq (by decide), h.offset, hline]

theorem classUse_eq (hline : onUseLine t o.offset = onUseLine s o.offset) :
    classUse t o'.offset (o'.offset + byteLength name) =
      classUse s o.offset (o.offset + byteLength name) := by
  have htied : Tied ['/'] (stripQualifier (s.beforeOnLine o.offset))
      (stripQualifier (t.beforeOnLine o'.offset)) :=
    (h.tied_before.dropTail (by decide)).dropTail (by decide)
  have hstatic : "::".toList.isPrefixOf (trimStart (t.afterOnLine (o'.offset + byteLength name))) =
      "::".toList.isPrefixOf (trimStart (s.afterOnLine (o.offset + byteLength name))) :=
    ((h.forked_after hrules).dropWhile (by decide)).isPrefixOf_eq (by decide)
  rw [classUse, classUse, hstatic, htied.endsWithWord_eq (by decide),
    htied.endsWithWord_eq (by decide), implementsList_matchesIn_eq h.tied_before, h.offset, hline]

omit hrules in
theorem constantUse?_eq : constantUse? t o' = constantUse? s o := by
  have htied : Tied ['/'] (trimEnd (s.beforeOnLine o.offset)) (trimEnd (t.beforeOnLine o'.offset)) :=
    h.tied_before.dropTail (by decide)
  rw [constantUse?, constantUse?, htied.isSuffixOf_eq (by decide)]

end Around

end Php

section Candidates

variable {s t : SourceText} {name quotes : List Char} {o o' : Occurrence}

theorem usesOutside_map {P : Occurrence → Bool} {f : Occurrence → Candidate}
    (hf : ∀ o, (f o).start = o.offset) (os : List Occurrence) :
    s.usesOutside ((os.filter P).map f) =
      ((os.filter (!s.inComment ·.offset)).filter P).map fun o => (o.offset, (f o).use? ()) := by
  have hstart : ((fun c : Candidate => !s.inComment c.start) ∘ f) = fun o => !s.inComment o.offset := by
    funext o
    rw [Function.comp_apply, hf]
  rw [SourceText.usesOutside, List.filter_map, hstart, List.filter_comm, List.map_map]
  exact List.map_congr_left fun o _ => by rw [Function.comp_apply, hf]

/-- What is asked of the occurrences of a name and comes out the same for the same occurrence yields the
same uses outside comments. -/
theorem SourceText.SameCode.usesOutside_eq (h : s.SameCode t) (hname : s.rules.Apart name)
    {P Q : Occurrence → Bool} {f g : Occurrence → Candidate} (hf : ∀ o, (f o).start = o.offset)
    (hg : ∀ o, (g o).start = o.offset)
    (hPQ : ∀ o o', Occurrence.Same s.rules s.inComment s.chars t.chars name o o' → Q o' = P o)
    (huse : ∀ o o', o ∈ (Text.occurrences name s.chars).filter P → s.inComment o.offset = false →
      Occurrence.Same s.rules s.inComment s.chars t.chars name o o' →
      (g o').use? () = (f o).use? ()) :
    t.usesOutside (((Text.occurrences name t.chars).filter Q).map g) =
      s.usesOutside (((Text.occurrences name s.chars).filter P).map f) := by
  have hcomment : (fun o : Occurrence => !t.inComment o.offset) = fun o => !s.inComment o.offset := by
    funext o
    rw [h.inComment]
  rw [usesOutside_map hf, usesOutside_map hg, hcomment, eq_comm, ← List.forall₂_eq_eq_eq,
    List.forall₂_map_left_iff, List.forall₂_map_right_iff]
  have hfiltered := List.rel_filter (p := P) (q := Q)
    (fun o o' ho => iff_of_eq (congrArg (· = true) (hPQ o o' ho).symm)) (h.occurrences hname)
  refine ((List.forall₂_and_left _ _).mpr ⟨fun o ho => ho, hfiltered⟩).imp ?_
  rintro o o' ⟨ho, hsame⟩
  obtain ⟨hout, hP⟩ := List.mem_filter.mp ho
  obtain ⟨hmem, hout⟩ := List.mem_filter.mp hout
  rw [huse o o' (List.mem_filter.mpr ⟨hmem, hP⟩) (by simpa using hout) hsame, hsame.offset]

theorem wholeOccurrences_eq (hne : name ≠ []) (text : List Char) :
    wholeOccurrences name text = (occurrences name text).filter Occurrence.isWhole := by
  rw [wholeOccurrences, if_neg (by simpa using hne)]

theorem tokenOffsets_eq (hne : name ≠ []) (text : List Char) :
    tokenOffsets name text =
      ((occurrences name text).filter (isTokenEdge name)).map Occurrence.offset := by
  rw [tokenOffsets, if_neg (by simpa using hne)]

/-- The occurrence stands between two equal quotes. -/
def isQuotedBy (quotes : List Char) (o : Occurrence) : Bool :=
  o.before.any fun q => quotes.contains q && o.after.head? == some q

theorem quotedOffsets_eq (s : SourceText) (quotes name : List Char) :
    quotedOffsets s quotes name =
      ((occurrences name s.chars).filter (isQuotedBy quotes)).map Occurrence.offset := by
  rw [quotedOffsets]
  generalize occurrences name s.chars = os
  induction os with
  | nil => rfl
  | cons o os ih =>
    rw [List.filterMap_cons, List.filter_cons, isQuotedBy]
    cases o.before with
    | none => exact ih
    | some q =>
      simp only [Option.any_some]
      by_cases hq : (quotes.contains q && o.after.head? == some q) = true
      · rw [if_pos hq, if_pos hq]
        exact congrArg (o.offset :: ·) ih
      · rw [if_neg hq, if_neg hq]
        exact ih

section Same

variable {language : Language} (hrules : s.rules = language.lexicalRules)
  (h : Occurrence.Same s.rules s.inComment s.chars t.chars name o o')

include hrules h

theorem isWhole_eq : o'.isWhole = o.isWhole := by
  rw [Occurrence.isWhole, Occurrence.isWhole, h.before_eq, (h.forked hrules).edge_eq (by decide)]

theorem isTokenEdge_eq : isTokenEdge name o' = isTokenEdge name o := by
  rw [isTokenEdge, isTokenEdge, h.before_eq, (h.forked hrules).edge_eq (by decide)]

theorem isQuotedBy_eq (hquotes : ∀ q ∈ quotes, q ∉ ['/', '#']) :
    isQuotedBy quotes o' = isQuotedBy quotes o := by
  rw [isQuotedBy, isQuotedBy, h.before_eq]
  cases o.before with
  | none => rfl
  | some q =>
    rw [Option.any_some, Option.any_some, Bool.eq_iff_iff]
    simp only [Bool.and_eq_true, List.contains_iff_mem, beq_iff_eq]
    exact and_congr_right fun hq => (h.forked hrules).head?_eq_some_iff (hquotes q hq)

end Same

/-- The whole occurrences of a name yield the same uses outside comments, if the same occurrence does. -/
theorem SourceText.SameCode.usesOutside_whole {language : Language}
    (hrules : s.rules = language.lexicalRules) (h : s.SameCode t) (hname : s.rules.Apart name)
    {f g : Occurrence → Candidate} (hf : ∀ o, (f o).start = o.offset)
    (hg : ∀ o, (g o).start = o.offset)
    (huse : ∀ o o', o ∈ wholeOccurrences name s.chars → s.inComment o.offset = false →
      Occurrence.Same s.rules s.inComment s.chars t.chars name o o' →
      (g o').use? () = (f o).use? ()) :
    t.usesOutside ((wholeOccurrences name t.chars).map g) =
      s.usesOutside ((wholeOccurrences name s.chars).map f) := by
  simp only [wholeOccurrences_eq hname.ne_nil] at huse ⊢
  exact h.usesOutside_eq hname hf hg (fun _ _ ho => isWhole_eq hrules ho) huse

theorem before_ne_of_isQuotedBy {c : Char} (hc : c ∉ quotes) (h : isQuotedBy quotes o = true) :
    o.before ≠ some c := by
  intro hbefore
  rw [isQuotedBy, hbefore, Option.any_some, Bool.and_eq_true, List.contains_iff_mem] at h
  exact hc h.1

/-- What the language reads of comments as well comes out the same in both texts: the line of a class or
function, and outside comments the places where a statement includes the file of the symbol or where the
key of a selector is named. -/
def Language.ReadsAlike (language : Language) (s t : SourceText) (symbol : Symbol) : Prop :=
  match language, symbol.kind with
  | .php, .type | .php, .function =>
    (∀ n, s.inComment n = false → (Php.IncludesAt t symbol n ↔ Php.IncludesAt s symbol n)) ∧
      ∀ n ∈ wordOffsets symbol.name.toList s.chars, s.inComment n = false →
        Php.onUseLine t n = Php.onUseLine s n
  | .javascript, .type | .javascript, .function =>
    ∀ n ∈ wordOffsets symbol.name.toList s.chars, s.inComment n = false →
      JavaScript.onImportLine t n = JavaScript.onImportLine s n
  | _, .selector =>
    ∀ key ∈ selectorKey? symbol.name.toList, ∀ n, s.inComment n = false →
      (language.SelectsAt t key n ↔ language.SelectsAt s key n)
  | _, _ => True

end Candidates

section Languages

variable {s t : SourceText} {symbol : Symbol}

theorem JavaScript.usesOutside_candidates (hrules : s.rules = Language.javascript.lexicalRules)
    (h : s.SameCode t) (hselector : symbol.kind ≠ .selector)
    (hname : s.rules.Apart symbol.name.toList) (hread : Language.javascript.ReadsAlike s t symbol) :
    t.usesOutside (candidates t symbol) = s.usesOutside (candidates s symbol) := by
  cases hkind : symbol.kind with
  | selector => exact absurd hkind hselector
  | file => simp [candidates, hkind, SourceText.usesOutside]
  | type =>
    simp only [Language.ReadsAlike, hkind, wordOffsets, List.forall_mem_map] at hread
    simp only [candidates, hkind, wordOffsets, List.map_map]
    exact h.usesOutside_whole hrules hname (fun _ => rfl) (fun _ => rfl)
      fun o _ hmem hout ho => congrArg some (classUse_eq hrules ho (hread o hmem hout))
  | function =>
    simp only [Language.ReadsAlike, hkind, wordOffsets, List.forall_mem_map] at hread
    simp only [candidates, hkind, wordOffsets, List.map_map]
    exact h.usesOutside_whole hrules hname (fun _ => rfl) (fun _ => rfl)
      fun o _ hmem hout ho => functionUse?_eq hrules ho (hread o hmem hout)
  | method =>
    simp only [candidates, hkind, wordOffsets, List.map_map]
    exact h.usesOutside_whole hrules hname (fun _ => rfl) (fun _ => rfl)
      fun _ _ _ _ ho => methodUse?_eq hrules ho
  | «variable» =>
    simp only [candidates, hkind, tokenOffsets_eq hname.ne_nil, List.map_map]
    exact h.usesOutside_eq hname (fun _ => rfl) (fun _ => rfl)
      (fun _ _ ho => isTokenEdge_eq hrules ho) fun _ _ _ _ _ => rfl
  | event =>
    simp only [candidates, hkind, quotedOffsets_eq, List.map_map]
    exact h.usesOutside_eq hname (fun _ => rfl) (fun _ => rfl)
      (fun _ _ ho => isQuotedBy_eq hrules ho (by decide)) fun _ _ hmem _ ho =>
        congrArg some (eventUse_eq (ho.tied_beforeQuote
          (before_ne_of_isQuotedBy (by decide) (List.mem_filter.mp hmem).2)))

/-- The statements that include a file come first, and what is left of the lines is up to the names. -/
theorem Php.useOn?_candidates (hrules : s.rules = Language.php.lexicalRules) (h : s.SameCode t)
    (hselector : symbol.kind ≠ .selector) (hname : s.rules.Apart symbol.name.toList)
    (hread : Language.php.ReadsAlike s t symbol) (line : Nat) :
    t.useOn? line (candidates t symbol) = s.useOn? line (candidates s symbol) := by
  cases hkind : symbol.kind with
  | selector => exact absurd hkind hselector
  | file => simp [candidates, hkind, SourceText.useOn?, SourceText.usesOutside]
  | type =>
    simp only [Language.ReadsAlike, hkind, wordOffsets, List.forall_mem_map] at hread
    have hincluded := candidatesAt_inclusions.useOn?_eq h candidatesAt_inclusions hread.1 line
    simp only [candidates, hkind, useOn?_append, hincluded]
    exact congrArg _ (useOn?_of_usesOutside h (h.usesOutside_whole hrules hname (fun _ => rfl)
      (fun _ => rfl) fun o _ hmem hout ho =>
        congrArg some (classUse_eq hrules ho (hread.2 o hmem hout))) line)
  | function =>
    simp only [Language.ReadsAlike, hkind, wordOffsets, List.forall_mem_map] at hread
    have hincluded := candidatesAt_inclusions.useOn?_eq h candidatesAt_inclusions hread.1 line
    simp only [candidates, hkind, useOn?_append, hincluded]
    exact congrArg _ (useOn?_of_usesOutside h (h.usesOutside_whole hrules hname (fun _ => rfl)
      (fun _ => rfl) fun o _ hmem hout ho => functionUse?_eq hrules ho (hread.2 o hmem hout)) line)
  | method =>
    simp only [candidates, hkind]
    exact useOn?_of_usesOutside h (h.usesOutside_whole hrules hname (fun _ => rfl) (fun _ => rfl)
      fun _ _ _ _ ho => methodUse?_eq hrules ho) line
  | «variable» =>
    simp only [candidates, hkind]
    exact useOn?_of_usesOutside h (h.usesOutside_whole hrules hname (fun _ => rfl) (fun _ => rfl)
      fun _ _ _ _ ho => constantUse?_eq ho) line
  | event =>
    simp only [candidates, hkind, quotedOffsets_eq, List.map_map]
    refine useOn?_of_usesOutside h (h.usesOutside_eq hname (fun _ => rfl) (fun _ => rfl)
      (fun _ _ ho => isQuotedBy_eq hrules ho (by decide)) fun _ _ hmem _ ho => ?_) line
    have hhook := firesHook_matchesIn_eq (ho.tied_beforeQuote
      (before_ne_of_isQuotedBy (by decide) (List.mem_filter.mp hmem).2))
    simp only [Function.comp_apply, hhook]

theorem Stylesheet.usesOutside_candidates (hrules : s.rules = Language.css.lexicalRules)
    (h : s.SameCode t) (hselector : symbol.kind ≠ .selector)
    (hname : s.rules.Apart symbol.name.toList) :
    t.usesOutside (candidates t symbol) = s.usesOutside (candidates s symbol) := by
  cases hkind : symbol.kind with
  | selector => exact absurd hkind hselector
  | «variable» =>
    simp only [candidates, hkind, tokenOffsets_eq hname.ne_nil, List.map_map]
    refine h.usesOutside_eq hname (fun _ => rfl) (fun _ => rfl)
      (fun _ _ ho => isTokenEdge_eq hrules ho) fun _ _ _ _ ho => ?_
    simp only [Function.comp_apply, ho.head?_trimStart_eq hrules (show ':' ∉ ['/', '#'] by decide)]
  | type | function | method | event | file => simp [candidates, hkind, SourceText.usesOutside]

/-- A selector is looked for in the text as it stands. -/
theorem Language.useOn?_candidates_of_selector {language : Language} (h : s.SameCode t)
    (hkind : symbol.kind = .selector) (hread : language.ReadsAlike s t symbol) (line : Nat) :
    t.useOn? line (language.candidates t symbol) = s.useOn? line (language.candidates s symbol) := by
  have hplaces : ∀ key ∈ selectorKey? symbol.name.toList, ∀ n, s.inComment n = false →
      (language.SelectsAt t key n ↔ language.SelectsAt s key n) := by
    cases language <;> simpa only [Language.ReadsAlike, hkind] using hread
  cases hkey : selectorKey? symbol.name.toList with
  | none =>
    rw [language.candidates_of_selectorKey?_eq_none hkind hkey,
      language.candidates_of_selectorKey?_eq_none hkind hkey]
    rfl
  | some key =>
    exact (language.candidatesAt_selector hkind hkey).useOn?_eq h
      (language.candidatesAt_selector hkind hkey) (hplaces key hkey) line

theorem Language.useOn?_candidates {language : Language} (hrules : s.rules = language.lexicalRules)
    (h : s.SameCode t) (hname : symbol.kind ≠ .selector → s.rules.Apart symbol.name.toList)
    (hread : language.ReadsAlike s t symbol) (line : Nat) :
    t.useOn? line (language.candidates t symbol) = s.useOn? line (language.candidates s symbol) := by
  by_cases hkind : symbol.kind = .selector
  · exact Language.useOn?_candidates_of_selector h hkind hread line
  · have hname := hname hkind
    cases language with
    | php => exact Php.useOn?_candidates hrules h hkind hname hread line
    | javascript =>
      exact useOn?_of_usesOutside h
        (JavaScript.usesOutside_candidates hrules h hkind hname hread) line
    | css =>
      exact useOn?_of_usesOutside h (Stylesheet.usesOutside_candidates hrules h hkind hname) line

/-- Two contents that differ in their comments only have uses of the same kinds on the same lines, if no
comment starts or ends within the name and what is read of comments comes out the same. -/
theorem map_usages_of_sameCode {language : Language} {content content' : String} (path : String)
    (h : (language.source content).SameCode (language.source content'))
    (hname : symbol.kind ≠ .selector → language.lexicalRules.Apart symbol.name.toList)
    (hread : language.ReadsAlike (language.source content) (language.source content') symbol) :
    (language.usages content' path symbol).map (fun u => (u.position.line, u.kind)) =
      (language.usages content path symbol).map fun u => (u.position.line, u.kind) :=
  map_collectUsages_congr (language.useOn?_candidates rfl h hname hread)

/-- A function that a file includes and calls. -/
def includedFunction : Symbol :=
  Symbol.define "load" .function "a.php" ⟨1, 9⟩ ⟨⟨1, 9⟩, ⟨1, 18⟩⟩

theorem map_usages_of_sameCode_call :
    (Language.php.source "<?php\n/* old */ load(1); // new\n").SameCode
        (Language.php.source "<?php\n/* new */ load(1); // old\n") ∧
      Language.php.lexicalRules.Apart includedFunction.name.toList ∧
      Language.php.ReadsAlike (Language.php.source "<?php\n/* old */ load(1); // new\n")
        (Language.php.source "<?php\n/* new */ load(1); // old\n") includedFunction ∧
      (Language.php.usages "<?php\n/* new */ load(1); // old\n" "b.php" includedFunction).map
          (fun u => (u.position.line, u.kind)) =
        (Language.php.usages "<?php\n/* old */ load(1); // new\n" "b.php" includedFunction).map
          fun u => (u.position.line, u.kind) := by
  have hcode : (Language.php.source "<?php\n/* old */ load(1); // new\n").SameCode
      (Language.php.source "<?php\n/* new */ load(1); // old\n") := by
    decide +kernel
  have hname : Language.php.lexicalRules.Apart includedFunction.name.toList := by
    decide +kernel
  have hread : Language.php.ReadsAlike (Language.php.source "<?php\n/* old */ load(1); // new\n")
      (Language.php.source "<?php\n/* new */ load(1); // old\n") includedFunction := by
    have hnone : Php.inclusions (Language.php.source "<?php\n/* old */ load(1); // new\n")
        includedFunction = [] := by decide +kernel
    have hnone' : Php.inclusions (Language.php.source "<?php\n/* new */ load(1); // old\n")
        includedFunction = [] := by decide +kernel
    constructor
    · intro n _
      rw [← Php.candidatesAt_inclusions.places, ← Php.candidatesAt_inclusions.places, hnone, hnone']
    · decide +kernel
  exact ⟨hcode, hname, hread, map_usages_of_sameCode "b.php" hcode (fun _ => hname) hread⟩

/-- The word that makes a string the name of an included file may stand in a comment: the two contents
differ in it only, and the file is included by one of them. -/
theorem usages_of_commentedInclude :
    (Language.php.source "<?php\nlint(/* require */ 'a.php');\n").SameCode
        (Language.php.source "<?php\nlint(/* request */ 'a.php');\n") ∧
      (Language.php.usages "<?php\nlint(/* require */ 'a.php');\n" "b.php" includedFunction).map
          (fun u => (u.position.line, u.kind)) = [(1, .inclusion)] ∧
      (Language.php.usages "<?php\nlint(/* request */ 'a.php');\n" "b.php" includedFunction).map
          (fun u => (u.position.line, u.kind)) = [] := by
  refine ⟨by decide +kernel, ?_, ?_⟩
  · decide +kernel
  · decide +kernel

end Languages

end Concordance
