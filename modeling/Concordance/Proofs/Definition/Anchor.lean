import Concordance.Definition.Basic
import Concordance.Proofs.Pattern.Match
import Concordance.Proofs.Source.Position
import Concordance.Proofs.Text.Occurrence

/-!
Where a name that a pattern finds stands in the text.

Main statements: `exists_found` (a name found is the stretch of the text that the first group of the
match reads), `exists_standsIn_between` (it stands between what its pattern asks for) and
`exists_bodyFrom` (a block starts right behind a brace).
-/

namespace Concordance

open Text Pattern

variable {s : SourceText}

section Found

/-- The name stands between the two parts of the text, at its byte. -/
structure FoundName.StandsIn (n : FoundName) (s : SourceText) (pre post : List Char) : Prop where
  chars : s.chars = pre ++ n.text ++ post
  start : byteLength pre = n.start
  nonempty : n.text ≠ []

variable {p body : Pattern} {front back : List Pattern} {f : Char → Bool} {start stop : Nat}
  {n : FoundName} {lead rest : List Char}

/-- A name found in the text behind `lead` is the stretch that the first group of a match reads, right
behind what the match reads before it. -/
theorem exists_reading (hp : p.Finds front body back f) (hchars : s.chars = lead ++ rest)
    (hstart : byteLength lead = start) (h : n ∈ s.namesIn p start stop) :
    ∃ c e g d passed taken post, c.Reads taken e ∧ e ∈ (all front).ends c ∧ g ∈ body.ends e ∧
      d ∈ (all back).ends { g with groups := (1, ⟨e.offset, g.offset⟩) :: g.groups } ∧
      e.Reads n.text g ∧ s.chars = (lead ++ passed ++ taken) ++ n.text ++ (g.rest ++ post) ∧
      byteLength (lead ++ passed ++ taken) = n.start ∧
      e.before = taken.getLast?.or passed.getLast? := by
  obtain ⟨m, hm, hn⟩ := List.mem_filterMap.mp h
  obtain ⟨passed, found, d, hslice, hd, rfl⟩ := mem_searchAll hm
  obtain ⟨e, he, g, hg, hd, hgroups⟩ := hp.exists_cut hd
  obtain ⟨taken, htaken⟩ := exists_reads_of_mem_ends he
  obtain ⟨name, hname⟩ := exists_reads_of_mem_ends hg
  have hrest : rest = passed ++ found ++ dropBytes (stop - start) rest := by
    rw [← hslice, SourceText.slice, sliceBytes, hchars, ← hstart, dropBytes_byteLength,
      takeBytes_append_dropBytes]
  have hfound : found = taken ++ (name ++ g.rest) := by
    rw [← hname.rest]
    exact htaken.rest
  have hall : s.chars = (lead ++ passed ++ taken) ++ name ++
      (g.rest ++ dropBytes (stop - start) rest) := by
    rw [hchars]
    conv_lhs => rw [hrest, hfound]
    simp
  have hoffset : byteLength (lead ++ passed ++ taken) = e.offset := by
    rw [htaken.offset, byteLength_append, byteLength_append, hstart]
  have hgroup : (⟨⟨start + byteLength passed, d.offset⟩, d.groups⟩ : Match).group? 1 =
      some ⟨e.offset, g.offset⟩ := by
    simp [Match.group?, hgroups]
  rw [hgroup, Option.map_some] at hn
  obtain rfl := Option.some.inj hn
  have htext : s.slice e.offset g.offset = name := by
    rw [SourceText.slice, hname.offset, ← hoffset, hall]
    exact sliceBytes_append _ _ _
  refine ⟨_, e, g, d, passed, taken, dropBytes (stop - start) rest, htaken, he, hg, hd, ?_, ?_,
    hoffset, htaken.before⟩
  · simpa only [htext] using hname
  · simpa only [htext] using hall

/-- A name found in the text behind `lead` is the stretch that the first group of a match reads. -/
theorem exists_found (hp : p.Finds front body back f) (hchars : s.chars = lead ++ rest)
    (hstart : byteLength lead = start) (h : n ∈ s.namesIn p start stop) :
    ∃ c e g d pre post, e ∈ (all front).ends c ∧ g ∈ body.ends e ∧
      d ∈ (all back).ends { g with groups := (1, ⟨e.offset, g.offset⟩) :: g.groups } ∧
      e.Reads n.text g ∧ s.chars = pre ++ n.text ++ (g.rest ++ post) ∧
      byteLength pre = n.start ∧ pre.getLast? = e.before.or lead.getLast? := by
  obtain ⟨c, e, g, d, passed, taken, post, -, he, hg, hd, hreads, hall, hoffset, hbefore⟩ :=
    exists_reading hp hchars hstart h
  refine ⟨c, e, g, d, lead ++ passed ++ taken, post, he, hg, hd, hreads, hall, hoffset, ?_⟩
  rw [hbefore, List.getLast?_append, List.getLast?_append, Option.or_assoc]

/-- A name found in the whole text stands in it, and its characters are of the class. -/
theorem exists_standsIn (hp : p.Finds front body back f) (h : n ∈ s.names p) :
    (∃ pre post, n.StandsIn s pre post) ∧ ∀ a ∈ n.text, f a = true := by
  obtain ⟨c, e, g, d, pre, post, -, hg, -, hreads, hall, hpre, -⟩ :=
    exists_found hp (List.nil_append s.chars).symm rfl h
  exact ⟨⟨pre, g.rest ++ post, hall, hpre, hp.advances.ne_nil hg hreads⟩, hp.readsOnly hg _ hreads⟩

/-- A name starts with what its pattern starts with. -/
theorem head?_of_startsIn (hp : p.Finds front body back f) {P : Option Char → Prop}
    (hbody : body.StartsIn P) (h : n ∈ s.names p) : P n.text.head? := by
  obtain ⟨c, e, g, d, pre, post, -, hg, -, hreads, -⟩ :=
    exists_found hp (List.nil_append s.chars).symm rfl h
  have hhead := hbody hg
  rw [hreads.rest] at hhead
  cases htext : n.text with
  | nil => exact absurd htext (hp.advances.ne_nil hg hreads)
  | cons a rest => simpa [htext] using hhead

/-- No character of an identifier, and not the end of the text. -/
def NoIdentChar (o : Option Char) : Prop :=
  ∃ a, o = some a ∧ isIdentChar a = false

/-- A name that is found stands between the characters that its pattern asks for; before it `lead` may
end. -/
theorem exists_standsIn_between {P Q : Option Char → Prop} (hp : p.Finds front body back f)
    (hbefore : (all front).EndsIn P) (hlead : P none → P lead.getLast?)
    (hafter : (all back).StartsIn Q) (hend : ¬ Q none) (hchars : s.chars = lead ++ rest)
    (hstart : byteLength lead = start) (h : n ∈ s.namesIn p start stop) :
    (∃ pre post, n.StandsIn s pre post ∧ P pre.getLast? ∧ Q post.head?) ∧
      ∀ a ∈ n.text, f a = true := by
  obtain ⟨c, e, g, d, pre, post, he, hg, hd, hreads, hall, hpre, hlast⟩ :=
    exists_found hp hchars hstart h
  refine ⟨⟨pre, g.rest ++ post, ⟨hall, hpre, hp.advances.ne_nil hg hreads⟩, ?_, ?_⟩,
    hp.readsOnly hg _ hreads⟩
  · have hedge : P e.before := hbefore he
    rw [hlast]
    cases heq : e.before with
    | none =>
      rw [heq] at hedge
      exact hlead hedge
    | some a =>
      rw [heq] at hedge
      exact hedge
  · have hedge := hafter hd
    cases hrest : g.rest with
    | nil =>
      rw [hrest] at hedge
      exact absurd hedge hend
    | cons a rest =>
      rw [hrest] at hedge
      exact hedge

/-- A name that is found between characters of no identifier stands between such. -/
theorem exists_standsIn_alone (hp : p.Finds front body back f)
    (hbefore : (all front).EndsIn fun o => edge isIdentChar o = true)
    (hafter : (all back).StartsIn NoIdentChar) (hchars : s.chars = lead ++ rest)
    (hstart : byteLength lead = start) (hlead : edge isIdentChar lead.getLast? = true)
    (h : n ∈ s.namesIn p start stop) :
    (∃ pre post, n.StandsIn s pre post ∧ edge isIdentChar pre.getLast? = true ∧
      edge isIdentChar post.head? = true) ∧ ∀ a ∈ n.text, f a = true := by
  have hend : ¬ NoIdentChar none := by
    rintro ⟨a, ha, -⟩
    cases ha
  obtain ⟨⟨pre, post, hstands, hleft, a, ha, hident⟩, hclass⟩ :=
    exists_standsIn_between hp hbefore (fun _ => hlead) hafter hend hchars hstart h
  exact ⟨⟨pre, post, hstands, hleft, by simp [ha, edge, hident]⟩, hclass⟩

end Found

section Line

variable {n : FoundName} {pre post : List Char}

theorem FoundName.StandsIn.line_eq (h : n.StandsIn s pre post) :
    (s.positionAt n.start).line = pre.count '\n' := by
  rw [line_positionAt, ← h.start, h.chars, List.append_assoc, takeBytes_byteLength]

theorem FoundName.StandsIn.line_lt (h : n.StandsIn s pre post) :
    (s.positionAt n.start).line < (linesWithEnds s.chars).length := by
  apply line_positionAt_lt
  rw [← h.start, h.chars, List.append_assoc, dropBytes_byteLength]
  simp [h.nonempty]

end Line

section Block

/-- A code character stands in the text at its byte. -/
theorem mem_codeIn {quotes : List Char} {reading : CodeReading} {comments : List Span}
    {offset : Nat} {cs : List Char} {c : CodeChar}
    (h : c ∈ codeIn quotes reading comments offset cs) :
    ∃ pre post, cs = pre ++ c.char :: post ∧ c.offset = offset + byteLength pre := by
  induction cs generalizing reading comments offset with
  | nil => simp [codeIn] at h
  | cons a cs ih =>
    have hlater : ∀ {reading : CodeReading} {comments : List Span},
        c ∈ codeIn quotes reading comments (offset + a.utf8Size) cs →
        ∃ pre post, a :: cs = pre ++ c.char :: post ∧ c.offset = offset + byteLength pre := by
      intro reading comments h
      obtain ⟨pre, post, rfl, hoffset⟩ := ih h
      exact ⟨a :: pre, post, rfl, by rw [hoffset, byteLength_cons, Nat.add_assoc]⟩
    simp only [codeIn] at h
    split at h
    · rcases List.mem_cons.mp h with rfl | h
      · exact ⟨[], cs, rfl, rfl⟩
      · exact hlater h
    · exact hlater h

theorem mem_codeFrom {offset : Nat} {c : CodeChar} (h : c ∈ s.codeFrom offset) :
    ∃ pre post, s.chars = pre ++ c.char :: post ∧ byteLength pre = c.offset := by
  obtain ⟨pre, post, hrest, hoffset⟩ := mem_codeIn h
  have hspot : takeBytes offset s.chars ++ (s.spotAt offset).rest = s.chars := by
    rw [SourceText.spotAt, rest_spotAt, takeBytes_append_dropBytes]
  refine ⟨takeBytes offset s.chars ++ pre, post, ?_, ?_⟩
  · rw [List.append_assoc, ← hrest, hspot]
  · rw [hoffset, SourceText.spotAt, offset_spotAt, byteLength_append]

theorem searchList_blockOpen {depth offset : Nat} {cs : List CodeChar}
    (h : searchList blockOpen depth cs = some offset) :
    ∃ c ∈ cs, c.char = '{' ∧ c.offset = offset := by
  induction cs generalizing depth with
  | nil => cases h
  | cons c cs ih =>
    simp only [searchList] at h
    split at h
    · obtain ⟨d, hd, hfound⟩ := ih h
      exact ⟨d, List.mem_cons_of_mem c hd, hfound⟩
    · next answer hvisit =>
      subst h
      unfold blockOpen at hvisit
      split at hvisit
      · cases hvisit
      · split at hvisit
        · cases hvisit
        · split at hvisit
          · next hopen =>
            exact ⟨c, List.mem_cons_self, hopen.1, by simpa using hvisit⟩
          · split at hvisit <;> simp at hvisit

/-- A block starts right behind a brace. -/
theorem exists_bodyFrom {offset parens start stop : Nat}
    (h : s.bodyFrom offset parens = .closed start stop) :
    ∃ pre rest, s.chars = (pre ++ ['{']) ++ rest ∧ byteLength (pre ++ ['{']) = start + 1 := by
  unfold SourceText.bodyFrom at h
  split at h
  · cases h
  · next o hopen =>
    split at h
    · cases h
    · obtain ⟨rfl, -⟩ := Body.closed.inj h
      rw [SourceText.findBlockOpen?, SourceText.searchFrom_spotAt] at hopen
      obtain ⟨c, hc, hchar, hoffset⟩ := searchList_blockOpen hopen
      obtain ⟨pre, post, hchars, hpre⟩ := mem_codeFrom hc
      refine ⟨pre, post, ?_, ?_⟩
      · rw [hchars, hchar]
        simp
      · rw [byteLength_append, hpre, hoffset]
        rfl

end Block

end Concordance
