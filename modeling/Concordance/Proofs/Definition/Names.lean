import Concordance.Proofs.Definition.Bodies

/-!
The names that a pattern finds outside comments, in a text in which lines without code change.

The names found in a text depend on the text alone, so a text that is divided where no match reaches
over has the names of its parts. Main statements: `textNames_append` (the names of a divided text) and
`namesOutside_move` (outside comments the names move on with the text).
-/

namespace Concordance

open Text Pattern

/-- The name with its places moved. -/
def FoundName.map (f : Nat → Nat) (n : FoundName) : FoundName :=
  ⟨n.text, f n.start, f n.stop, f n.matchStop⟩

section TextNames

/-- The name that the first group of a match finds in a text that stands at the byte. -/
def Match.name? (offset : Nat) (text : List Char) (m : Match) : Option FoundName :=
  (m.group? 1).map fun g =>
    ⟨sliceBytes (g.start - offset) (g.stop - offset) text, g.start, g.stop, m.span.stop⟩

/-- The names that the pattern finds in a text that stands at the byte. -/
def textNames (p : Pattern) (offset : Nat) (text : List Char) : List FoundName :=
  (p.searchAll offset text).filterMap (Match.name? offset text)

/-- The match finds the name between the two parts of a text that stands at the byte. -/
structure Match.Cuts (m : Match) (offset : Nat) (pre name post : List Char) : Prop where
  nonempty : name ≠ []
  group : m.group? 1 =
    some ⟨offset + byteLength pre, offset + byteLength pre + byteLength name⟩
  start : m.span.start ≤ offset + byteLength pre
  stop : offset + byteLength pre + byteLength name ≤ m.span.stop
  last : m.span.stop ≤ offset + byteLength pre + byteLength name + byteLength post

variable {p body : Pattern} {front back : List Pattern} {f : Char → Bool} {m : Match}
  {offset : Nat} {text pre name post : List Char} {n : FoundName}

theorem Match.Cuts.name?_eq (h : m.Cuts offset pre name post) :
    m.name? offset (pre ++ name ++ post) =
      some ⟨name, offset + byteLength pre, offset + byteLength pre + byteLength name,
        m.span.stop⟩ := by
  rw [Match.name?, h.group, Option.map_some, Nat.add_sub_cancel_left, Nat.add_assoc,
    Nat.add_sub_cancel_left, sliceBytes_append]

/-- A match of a pattern that finds names finds one, and what the pattern asks for stands around
it. -/
theorem exists_cuts (hp : p.Finds front body back f) (h : m ∈ p.searchAll offset text) :
    ∃ pre name post, text = pre ++ name ++ post ∧ m.Cuts offset pre name post ∧
      ∃ c e g, e ∈ (all front).ends c ∧ g ∈ body.ends e ∧ e.before = pre.getLast? ∧
        e.rest = name ++ post := by
  obtain ⟨passed, rest, d, rfl, hd, rfl⟩ := mem_searchAll h
  obtain ⟨e, he, g, hg, hd, hgroups⟩ := hp.exists_cut hd
  obtain ⟨taken, htaken⟩ := exists_reads_of_mem_ends he
  obtain ⟨name, hname⟩ := exists_reads_of_mem_ends hg
  obtain ⟨more, hmore⟩ := exists_reads_of_mem_ends hd
  have hrest : rest = taken ++ e.rest := htaken.rest
  have hoffset : e.offset = offset + byteLength (passed ++ taken) := by
    rw [htaken.offset, byteLength_append, Nat.add_assoc]
  have hstop : d.offset = g.offset + byteLength more := hmore.offset
  have hback : g.rest = more ++ d.rest := hmore.rest
  refine ⟨passed ++ taken, name, g.rest, ?_, ⟨hp.advances.ne_nil hg hname, ?_, ?_, ?_, ?_⟩,
    _, e, g, he, hg, ?_, hname.rest⟩
  · rw [hrest, hname.rest]
    simp
  · simp [Match.group?, hgroups, hname.offset, hoffset]
  · rw [byteLength_append]
    dsimp only
    omega
  · rw [← hoffset, ← hname.offset, hstop]
    exact Nat.le_add_right _ _
  · rw [← hoffset, ← hname.offset, hback, byteLength_append]
    dsimp only
    omega
  · rw [htaken.before, List.getLast?_append]

theorem exists_of_mem_textNames (hp : p.Finds front body back f) (h : n ∈ textNames p offset text) :
    ∃ m ∈ p.searchAll offset text, ∃ pre post, text = pre ++ n.text ++ post ∧
      m.Cuts offset pre n.text post ∧ n.start = offset + byteLength pre ∧
      n.stop = offset + byteLength pre + byteLength n.text ∧ n.matchStop = m.span.stop ∧
      ∃ c e g, e ∈ (all front).ends c ∧ g ∈ body.ends e ∧ e.before = pre.getLast? ∧
        e.rest = n.text ++ post := by
  obtain ⟨m, hm, hn⟩ := List.mem_filterMap.mp h
  obtain ⟨pre, name, post, rfl, hcuts, hreads⟩ := exists_cuts hp hm
  rw [hcuts.name?_eq] at hn
  obtain rfl := Option.some.inj hn
  exact ⟨m, hm, pre, post, rfl, hcuts, rfl, rfl, rfl, hreads⟩

/-- A name lies in the text, and so does the match that found it. -/
theorem bounds_of_mem_textNames (hp : p.Finds front body back f)
    (h : n ∈ textNames p offset text) :
    offset ≤ n.start ∧ n.start ≤ n.stop ∧ n.stop ≤ n.matchStop ∧
      n.matchStop ≤ offset + byteLength text := by
  obtain ⟨m, -, pre, post, htext, hcuts, hstart, hstop, hmatch, -⟩ := exists_of_mem_textNames hp h
  have hle := hcuts.stop
  have hlast := hcuts.last
  rw [hstart, hstop, hmatch, htext, byteLength_append, byteLength_append]
  omega

theorem Match.group?_map (f : Nat → Nat) (m : Match) (k : Nat) :
    (m.map f).group? k = (m.group? k).map (Span.map f) := by
  obtain ⟨span, groups⟩ := m
  show (groups.map fun g => (g.1, g.2.map f)).lookup k = (groups.lookup k).map (Span.map f)
  induction groups with
  | nil => rfl
  | cons g groups ih =>
    obtain ⟨j, span⟩ := g
    rw [List.map_cons, List.lookup_cons, List.lookup_cons]
    cases hk : k == j with
    | true => rfl
    | false => exact ih

theorem Match.Cuts.shift (h : m.Cuts offset pre name post) (k : Nat) :
    (m.map (· + k)).Cuts (offset + k) pre name post where
  nonempty := h.nonempty
  group := by
    rw [Match.group?_map, h.group]
    simp only [Option.map_some, Span.map, Option.some.injEq, Span.mk.injEq]
    omega
  start := by
    have := h.start
    show m.span.start + k ≤ _
    omega
  stop := by
    have := h.stop
    show _ ≤ m.span.stop + k
    omega
  last := by
    have := h.last
    show m.span.stop + k ≤ _
    omega

/-- The names of a text that stands further on. -/
theorem textNames_add (hp : p.Finds front body back f) (hdivisible : p.Divisible)
    (offset k : Nat) (text : List Char) :
    textNames p (offset + k) text = (textNames p offset text).map (FoundName.map (· + k)) := by
  rw [textNames, textNames, hdivisible.searchAll_add, List.filterMap_map, List.map_filterMap]
  refine List.filterMap_congr fun m hm => ?_
  obtain ⟨pre, name, post, rfl, hcuts, -⟩ := exists_cuts hp hm
  show (m.map (· + k)).name? (offset + k) (pre ++ name ++ post) = _
  rw [hcuts.name?_eq, (hcuts.shift k).name?_eq]
  simp only [Option.map_some, FoundName.map, Option.some.injEq, FoundName.mk.injEq, true_and]
  refine ⟨by omega, by omega, rfl⟩

theorem Match.Resumed.name?_eq {m m' : Match} (h : m.Resumed m') (offset : Nat)
    (text : List Char) : m'.name? offset text = m.name? offset text := by
  simp only [Match.name?, Match.group?, h.groups, h.stop]

/-- The names do not tell where the matches start. -/
theorem filterMap_name?_of_resumed {ms ms' : List Match} (h : List.Forall₂ Match.Resumed ms ms')
    (offset : Nat) (text : List Char) :
    ms.filterMap (Match.name? offset text) = ms'.filterMap (Match.name? offset text) := by
  induction h with
  | nil => rfl
  | cons hresumed _ ih =>
    rw [List.filterMap_cons, List.filterMap_cons, ih, hresumed.name?_eq]

/-- The names of a divided text are those of its parts. -/
theorem textNames_append (hp : p.Finds front body back f) (hdivisible : p.Divisible)
    {text more : List Char} (hwhole : WholeLines text)
    (hparted : ∀ m ∈ p.searchAll offset (text ++ more), m.Parted offset text) :
    textNames p offset (text ++ more) =
      textNames p offset text ++ textNames p (offset + byteLength text) more := by
  rw [textNames, filterMap_name?_of_resumed (hdivisible.searchAll_append hwhole hparted),
    List.filterMap_append]
  refine congrArg₂ _ (List.filterMap_congr fun m hm => ?_) (List.filterMap_congr fun m hm => ?_)
  · obtain ⟨pre, name, post, rfl, hcuts, -⟩ := exists_cuts hp hm
    have hlong : m.Cuts offset pre name (post ++ more) :=
      { hcuts with
        last := Nat.le_trans hcuts.last (by simp) }
    rw [hcuts.name?_eq, List.append_assoc, hlong.name?_eq]
  · obtain ⟨pre, name, post, rfl, hcuts, -⟩ := exists_cuts hp hm
    have hoffset : offset + byteLength (text ++ pre) =
        offset + byteLength text + byteLength pre := by
      rw [byteLength_append, Nat.add_assoc]
    have hlong : m.Cuts offset (text ++ pre) name post :=
      ⟨hcuts.nonempty, by rw [hoffset]; exact hcuts.group, by rw [hoffset]; exact hcuts.start,
        by rw [hoffset]; exact hcuts.stop, by rw [hoffset]; exact hcuts.last⟩
    have htext : text ++ (pre ++ name ++ post) = (text ++ pre) ++ name ++ post := by simp
    rw [hcuts.name?_eq, htext, hlong.name?_eq, hoffset]

/-- The names found in a stretch of a text are those of the stretch. -/
theorem namesIn_eq_textNames (hp : p.Finds front body back f) {s : SourceText} {start : Nat}
    (hstart : onBoundary start s.chars = true) (stop : Nat) :
    s.namesIn p start stop = textNames p start (s.slice start stop) := by
  obtain ⟨lead, rest, hchars, hlead⟩ := onBoundary_iff.mp hstart
  rw [SourceText.namesIn, textNames]
  refine List.filterMap_congr fun m hm => ?_
  obtain ⟨pre, name, post, hslice, hcuts, -⟩ := exists_cuts hp hm
  have hrest : rest = pre ++ name ++ post ++ dropBytes (stop - start) rest := by
    rw [← hslice, SourceText.slice, sliceBytes, hchars, ← hlead, dropBytes_byteLength,
      takeBytes_append_dropBytes]
  have hname : s.slice (start + byteLength pre) (start + byteLength pre + byteLength name) =
      name := by
    have hall : s.chars = (lead ++ pre) ++ name ++ (post ++ dropBytes (stop - start) rest) := by
      rw [hchars]
      conv_lhs => rw [hrest]
      simp
    rw [SourceText.slice, hall, ← hlead, ← byteLength_append, sliceBytes_append]
  rw [hslice, hcuts.name?_eq, hcuts.group, Option.map_some, hname]

end TextNames

/-- A character that can be seen and ends no comment. -/
def Lead (o : Option Char) : Prop :=
  ∃ c, o = some c ∧ isBlank c = false ∧ c ≠ '/'

/-- A pattern of names: its matches can be divided at the ends of lines, and a name starts with a
character that can be seen, or right behind one and on the same line. -/
structure Pattern.Names (p : Pattern) (front : List Pattern) (body : Pattern)
    (back : List Pattern) (f : Char → Bool) : Prop where
  finds : p.Finds front body back f
  divisible : p.Divisible
  seen : body.StartsIn Visible ∨ (all front).EndsIn Lead ∧ body.StartsIn (· ≠ some '\n')

/-- The names that the pattern finds outside comments in the text from `start` to `stop`. -/
def SourceText.namesOutside (s : SourceText) (p : Pattern) (start stop : Nat) : List FoundName :=
  (s.namesIn p start stop).filter fun n => !s.inComment n.start

/-- No match of the pattern in the text from `start` to `stop` reaches over the cut, but for white
space at its front. -/
def SourceText.Parted (s : SourceText) (p : Pattern) (start stop cut : Nat) : Prop :=
  ∀ m ∈ p.searchAll start (s.slice start stop),
    m.span.stop < cut ∨ AllBlank (s.slice m.span.start cut)

instance (s : SourceText) (p : Pattern) (start stop cut : Nat) :
    Decidable (s.Parted p start stop cut) :=
  inferInstanceAs (Decidable (∀ m ∈ _, _ ∨ AllBlank _))

section Stretch

variable {p : Pattern} {lo : Nat}

theorem allBlank_slice_of_le {s : SourceText} {a b cut : Nat} (ha : onBoundary a s.chars = true)
    (hb : onBoundary b s.chars = true) (hab : a ≤ b) (h : AllBlank (s.slice a cut)) :
    AllBlank (s.slice b cut) := by
  rcases Nat.le_total b cut with hle | hle
  · rw [slice_eq_append ha hb hab hle] at h
    exact fun c hc => h c (List.mem_append_right _ hc)
  · rw [SourceText.slice, sliceBytes, Nat.sub_eq_zero_of_le hle, takeBytes_zero]
    exact fun c hc => absurd hc List.not_mem_nil

/-- What stands in a stretch behind its front part. -/
theorem slice_behind {s : SourceText} {stop : Nat} {text more : List Char}
    (hlo : onBoundary lo s.chars = true) (h : s.slice lo stop = text ++ more) :
    s.slice (lo + byteLength text) stop = more := by
  obtain ⟨lead, tail, hchars, rfl⟩ := onBoundary_iff.mp hlo
  rw [SourceText.slice, sliceBytes, hchars, dropBytes_byteLength] at h
  obtain ⟨post, rfl⟩ : ∃ post, tail = text ++ post :=
    ⟨more ++ dropBytes (stop - byteLength lead) tail, by
      rw [← List.append_assoc, ← h, takeBytes_append_dropBytes]⟩
  rw [SourceText.slice, sliceBytes, hchars, dropBytes_append, dropBytes_byteLength]
  rcases Nat.le_total (byteLength text) (stop - byteLength lead) with hle | hle
  · obtain ⟨k, hk⟩ := Nat.exists_eq_add_of_le hle
    have hrest : stop - (byteLength lead + byteLength text) = k := by omega
    rw [hk, takeBytes_append] at h
    rw [hrest]
    exact List.append_cancel_left h
  · have hnone : stop - (byteLength lead + byteLength text) = 0 := by omega
    have hsize := byteLength_takeBytes_le (stop - byteLength lead) text
    rw [takeBytes_append_of_le hle] at h
    rw [h, byteLength_append] at hsize
    rw [hnone, takeBytes_zero]
    exact (byteLength_eq_zero_iff.mp (by omega)).symm

/-- What stands of a stretch from a place on up to a cut, read in the stretch alone. -/
theorem allBlank_dropBytes {s : SourceText} {stop : Nat} {text more passed rest : List Char}
    (hlo : onBoundary lo s.chars = true) (hslice : s.slice lo stop = text ++ more)
    (htext : text ++ more = passed ++ rest)
    (h : AllBlank (s.slice (lo + byteLength passed) (lo + byteLength text))) :
    AllBlank (dropBytes (byteLength passed) text) := by
  obtain ⟨lead, tail, hchars, hlead⟩ := onBoundary_iff.mp hlo
  have htail : tail = passed ++ (rest ++ dropBytes (stop - lo) tail) := by
    rw [← List.append_assoc, ← htext, ← hslice, SourceText.slice, sliceBytes, hchars, ← hlead,
      dropBytes_byteLength, takeBytes_append_dropBytes]
  rcases List.append_eq_append_iff.mp htext with ⟨mid, rfl, -⟩ | ⟨mid, rfl, rfl⟩
  · have hnil : dropBytes (byteLength (text ++ mid)) text = [] := by
      have := dropBytes_append text (byteLength mid) []
      rwa [dropBytes_nil, List.append_nil, ← byteLength_append] at this
    rw [hnil]
    exact fun c hc => absurd hc List.not_mem_nil
  · rw [dropBytes_byteLength]
    rwa [SourceText.slice, sliceBytes, hchars, ← hlead, dropBytes_append, htail,
      dropBytes_byteLength, byteLength_append, ← Nat.add_assoc, Nat.add_sub_cancel_left,
      List.append_assoc, takeBytes_byteLength] at h

theorem exists_of_mem_forall₂ {α β : Type} {R : α → β → Prop} {xs : List α} {ys : List β}
    (h : List.Forall₂ R xs ys) {y : β} (hy : y ∈ ys) : ∃ x ∈ xs, R x y := by
  induction h with
  | nil => cases hy
  | cons hxy _ ih =>
    rcases List.mem_cons.mp hy with rfl | hy
    · exact ⟨_, List.mem_cons_self, hxy⟩
    · obtain ⟨x, hx, hxy⟩ := ih hy
      exact ⟨x, List.mem_cons_of_mem _ hx, hxy⟩

section Parted

variable {s : SourceText} {stop cut : Nat} {text more : List Char}

/-- Read in the stretch alone, no match reaches over the end of the front part. -/
theorem SourceText.Parted.parted (hlo : onBoundary lo s.chars = true)
    (hslice : s.slice lo stop = text ++ more) (h : s.Parted p lo stop (lo + byteLength text)) :
    ∀ m ∈ p.searchAll lo (text ++ more), m.Parted lo text := by
  intro m hm
  refine (h m (hslice ▸ hm)).imp_right fun hblank => ?_
  obtain ⟨passed, rest, d, htext, -, rfl⟩ := mem_searchAll hm
  simpa using allBlank_dropBytes hlo hslice htext hblank

/-- A match behind a cut is the rest of one in the whole stretch, so it does not reach over a later cut
either. -/
theorem SourceText.Parted.behind (hp : p.Divisible) (hwhole : WholeLines text)
    (hlo : onBoundary lo s.chars = true) (hslice : s.slice lo stop = text ++ more)
    (hfirst : s.Parted p lo stop (lo + byteLength text)) (h : s.Parted p lo stop cut) :
    s.Parted p (lo + byteLength text) stop cut := by
  intro m hm
  have hmore := slice_behind hlo hslice
  rw [hmore] at hm
  have hall := hp.searchAll_append hwhole (hfirst.parted hlo hslice)
  obtain ⟨m', hm', hresumed⟩ := exists_of_mem_forall₂ hall (List.mem_append_right _ hm)
  rw [hresumed.stop]
  refine (h m' (hslice ▸ hm')).imp_right fun hblank => ?_
  obtain ⟨passed, rest, d, htext, -, rfl⟩ := mem_searchAll hm
  obtain ⟨passed', rest', d', htext', -, rfl⟩ := mem_searchAll hm'
  have hedge : onBoundary (lo + byteLength text) s.chars = true :=
    onBoundary_add_slice hlo (hslice ▸ onBoundary_byteLength text more)
  have hlater : onBoundary (lo + byteLength text + byteLength passed) s.chars = true :=
    onBoundary_add_slice hedge (hmore.trans htext ▸ onBoundary_byteLength passed rest)
  have hearlier : onBoundary (lo + byteLength passed') s.chars = true :=
    onBoundary_add_slice hlo (hslice.trans htext' ▸ onBoundary_byteLength passed' rest')
  exact allBlank_slice_of_le hearlier hlater hresumed.start hblank

end Parted

end Stretch

namespace Change

variable {rules : LexicalRules} (e : Change rules) {p body : Pattern} {front back : List Pattern}
  {f : Char → Bool} {n : FoundName} {lo lo' hi : Nat}

/-- Names in lines without code stand in comments. -/
theorem inComment_of_mem_old (hp : p.Names front body back f)
    (h : n ∈ textNames p e.start e.old) : e.before.inComment n.start = true := by
  obtain ⟨m, -, pre, post, hold, hcuts, hstart, -, -, c, d, g, hd, hg, hbefore, hrest⟩ :=
    exists_of_mem_textNames hp.finds h
  obtain ⟨a, name, hname⟩ := List.exists_cons_of_ne_nil hcuts.nonempty
  have hhead : d.rest.head? = some a := by simp [hrest, hname]
  have hquiet := e.old_quiet
  rw [hold, hname] at hquiet
  have hshape : pre ++ a :: name ++ post = pre ++ a :: (name ++ post) := by simp
  rw [hshape] at hquiet
  rw [hstart]
  apply e.inComment_old
  rw [hold, hname, hshape]
  rcases hp.seen with hseen | ⟨hlead, hseen⟩
  · obtain ⟨b, hb, hblank⟩ := hseen hg
    obtain rfl : a = b := Option.some.inj (hhead.symm.trans hb)
    exact hquiet.covers hblank
  · obtain ⟨q, hq, hblank, hslash⟩ := hlead hd
    obtain ⟨lead, rfl⟩ := List.getLast?_eq_some_iff.mp (hbefore.symm.trans hq)
    have hsplit : lead ++ [q] ++ a :: (name ++ post) = lead ++ q :: a :: (name ++ post) := by simp
    rw [hsplit] at hquiet ⊢
    refine hquiet.covers_next hblank hslash fun ha => hseen hg ?_
    rw [hhead, ha]

/-- No match of the pattern in the stretch reaches over the start of the lines or over their end, but
for white space at its front. -/
def Divides (p : Pattern) (lo hi : Nat) : Prop :=
  e.before.Parted p lo hi e.start ∧ e.before.Parted p lo hi e.stop

section Boundary

variable {o : Nat}

theorem onBoundary_front (h : o ≤ e.start) :
    onBoundary o e.before.chars = onBoundary o e.front := by
  show (byteLength (takeBytes o (e.front ++ (e.old ++ e.back))) == o) = _
  rw [takeBytes_append_of_le h]
  rfl

theorem onBoundary_back (k : Nat) : onBoundary (e.stop + k) e.before.chars = onBoundary k e.back := by
  show (byteLength (takeBytes (e.stop + k) (e.front ++ (e.old ++ e.back))) == e.stop + k) = _
  rw [stop, Nat.add_assoc, takeBytes_append, takeBytes_append, byteLength_append, byteLength_append]
  rw [onBoundary, Bool.eq_iff_iff, beq_iff_eq, beq_iff_eq]
  omega

/-- Places between characters stay such places. -/
theorem onBoundary_move (h : e.Beside o) :
    onBoundary (e.move o) e.after.chars = onBoundary o e.before.chars := by
  show onBoundary (e.move o) e.swap.before.chars = _
  rcases h.cases with h | ⟨k, rfl⟩
  · rw [move_of_lt h, e.onBoundary_front (Nat.le_of_lt h), e.swap.onBoundary_front (Nat.le_of_lt h)]
    rfl
  · rw [move_stop_add, e.onBoundary_back, e.swap.onBoundary_back]
    rfl

end Boundary

theorem byteLength_sliceBytes {text : List Char} (hlo : onBoundary lo text = true)
    (hhi : onBoundary hi text = true) (hle : lo ≤ hi) :
    byteLength (sliceBytes lo hi text) = hi - lo := by
  obtain ⟨pre, post, rfl, rfl⟩ := onBoundary_iff.mp hlo
  rw [onBoundary, beq_iff_eq] at hhi
  obtain ⟨k, rfl⟩ := Nat.exists_eq_add_of_le hle
  rw [takeBytes_append, byteLength_append] at hhi
  rw [sliceBytes, Nat.add_sub_cancel_left, dropBytes_byteLength]
  omega

theorem byteLength_dropBytes {text : List Char} (h : onBoundary lo text = true) :
    lo + byteLength (dropBytes lo text) = byteLength text := by
  have htotal := congrArg byteLength (takeBytes_append_dropBytes lo text)
  rw [onBoundary, beq_iff_eq] at h
  rwa [byteLength_append, h] at htotal

/-- Outside comments, the names of a stretch before the lines, all of which lie before them. -/
theorem namesOutside_front (hp : p.Names front body back f)
    (hlo : onBoundary lo e.before.chars = true) (hhi : onBoundary hi e.before.chars = true)
    (hle : lo ≤ hi) (hlt : hi < e.start) :
    (∀ n ∈ textNames p lo (sliceBytes lo hi e.front), n.matchStop < e.start) ∧
      e.before.namesOutside p lo hi = (textNames p lo (sliceBytes lo hi e.front)).filter
        fun n => !(commentSpans rules e.front).any (·.covers n.start) := by
  rw [e.onBoundary_front hlt.le] at hhi
  have hfront : onBoundary lo e.front = true := by
    rwa [e.onBoundary_front (Nat.le_trans hle hlt.le)] at hlo
  have hbefore : ∀ n ∈ textNames p lo (sliceBytes lo hi e.front), n.matchStop < e.start := by
    intro n hn
    have hbounds := bounds_of_mem_textNames hp.finds hn
    rw [byteLength_sliceBytes hfront hhi hle] at hbounds
    omega
  refine ⟨hbefore, ?_⟩
  rw [SourceText.namesOutside, namesIn_eq_textNames hp.finds hlo, e.slice_front hfront hle hlt.le]
  refine List.filter_congr fun n hn => ?_
  have hbounds := bounds_of_mem_textNames hp.finds hn
  have hlast := hbefore n hn
  rw [e.inComment_front (by omega)]

/-- Outside comments, the names of a stretch behind the lines. -/
theorem namesOutside_back (hp : p.Names front body back f) {k k' : Nat}
    (hk : onBoundary k e.back = true) :
    e.before.namesOutside p (e.stop + k) (e.stop + k') =
      ((textNames p k (sliceBytes k k' e.back)).filter
        fun n => !(commentSpans rules e.back).any (·.covers n.start)).map
          (FoundName.map (· + e.stop)) := by
  have hlo : onBoundary (e.stop + k) e.before.chars = true := by rwa [e.onBoundary_back]
  rw [SourceText.namesOutside, namesIn_eq_textNames hp.finds hlo, e.slice_back, Nat.add_comm e.stop k,
    textNames_add hp.finds hp.divisible, List.filter_map]
  refine congrArg _ (List.filter_congr fun n hn => ?_)
  show (!e.before.inComment (n.start + e.stop)) = _
  rw [Nat.add_comm, e.inComment_back]

/-- The names of a stretch from before the lines to behind them are those before, in them and behind. -/
theorem textNames_across (hp : p.Names front body back f) (hlo : onBoundary lo e.before.chars = true)
    (hle : lo ≤ e.start) {k : Nat} (hdivides : e.Divides p lo (e.stop + k)) :
    textNames p lo (e.before.slice lo (e.stop + k)) =
      textNames p lo (dropBytes lo e.front) ++ (textNames p e.start e.old ++
        (textNames p 0 (takeBytes k e.back)).map (FoundName.map (· + e.stop))) := by
  obtain ⟨hstart, hstop⟩ := hdivides
  have hfront : onBoundary lo e.front = true := by rwa [e.onBoundary_front hle] at hlo
  have hslice := e.slice_across hfront hle k
  have hcut : lo + byteLength (dropBytes lo e.front) = e.start := byteLength_dropBytes hfront
  have hwhole : WholeLines (dropBytes lo e.front) :=
    e.whole.suffix ⟨takeBytes lo e.front, takeBytes_append_dropBytes lo e.front⟩
  have hfirst : e.before.Parted p lo (e.stop + k) (lo + byteLength (dropBytes lo e.front)) := by
    rw [hcut]
    exact hstart
  have hsecond := hfirst.behind hp.divisible hwhole hlo hslice hstop
  have hrest := slice_behind hlo hslice
  rw [hcut] at hsecond hrest
  have hedge : onBoundary e.start e.before.chars = true := onBoundary_byteLength _ _
  have hshift := textNames_add hp.finds hp.divisible 0 e.stop (takeBytes k e.back)
  rw [Nat.zero_add] at hshift
  rw [hslice, textNames_append hp.finds hp.divisible hwhole (hfirst.parted hlo hslice), hcut,
    textNames_append hp.finds hp.divisible e.old_quiet.whole (hsecond.parted hedge hrest), ← hshift]
  rfl

/-- Outside comments, the names of a stretch from before the lines to behind them are those before
and those behind, the former of which lie before them. -/
theorem namesOutside_across (hp : p.Names front body back f)
    (hlo : onBoundary lo e.before.chars = true) (hle : lo ≤ e.start) {k : Nat}
    (hdivides : e.Divides p lo (e.stop + k)) :
    (∀ n ∈ textNames p lo (dropBytes lo e.front), n.matchStop < e.start) ∧
      e.before.namesOutside p lo (e.stop + k) =
        (textNames p lo (dropBytes lo e.front)).filter
            (fun n => !(commentSpans rules e.front).any (·.covers n.start)) ++
          ((textNames p 0 (takeBytes k e.back)).filter
            (fun n => !(commentSpans rules e.back).any (·.covers n.start))).map
              (FoundName.map (· + e.stop)) := by
  have hfront : onBoundary lo e.front = true := by rwa [e.onBoundary_front hle] at hlo
  have hcut : lo + byteLength (dropBytes lo e.front) = e.start := byteLength_dropBytes hfront
  have hwhole : WholeLines (dropBytes lo e.front) :=
    e.whole.suffix ⟨takeBytes lo e.front, takeBytes_append_dropBytes lo e.front⟩
  have hbefore : ∀ n ∈ textNames p lo (dropBytes lo e.front), n.matchStop < e.start := by
    intro n hn
    obtain ⟨m, hm, -, -, -, -, -, -, hmatch, -⟩ := exists_of_mem_textNames hp.finds hn
    rw [hmatch, ← hcut]
    exact hp.divisible.stop_lt hwhole hm
  refine ⟨hbefore, ?_⟩
  have hold : (textNames p e.start e.old).filter (fun n => !e.before.inComment n.start) = [] := by
    rw [List.filter_eq_nil_iff]
    intro n hn
    simp [e.inComment_of_mem_old hp hn]
  rw [SourceText.namesOutside, namesIn_eq_textNames hp.finds hlo, e.textNames_across hp hlo hle hdivides,
    List.filter_append, List.filter_append, hold, List.nil_append, List.filter_map]
  refine congrArg₂ _ (List.filter_congr fun n hn => ?_)
    (congrArg _ (List.filter_congr fun n hn => ?_))
  · have hbounds := bounds_of_mem_textNames hp.finds hn
    have hlast := hbefore n hn
    rw [e.inComment_front (by omega)]
  · show (!e.before.inComment (n.start + e.stop)) = _
    rw [Nat.add_comm, e.inComment_back]

/-- The name, and the match that found it, lie beside the lines. -/
structure NameBeside (n : FoundName) : Prop where
  start : e.Beside n.start
  stop : e.Beside n.stop
  matchStop : e.Beside n.matchStop

theorem nameBeside_of_lt (hle : n.start ≤ n.stop) (hle' : n.stop ≤ n.matchStop)
    (h : n.matchStop < e.start) : e.NameBeside n ∧ n.map e.move = n := by
  have hstop : n.stop < e.start := by omega
  have hstart : n.start < e.start := by omega
  refine ⟨⟨Or.inl hstart, Or.inl hstop, Or.inl h⟩, ?_⟩
  show FoundName.mk n.text (e.move n.start) (e.move n.stop) (e.move n.matchStop) = n
  rw [move_of_lt hstart, move_of_lt hstop, move_of_lt h]

theorem nameBeside_add (n : FoundName) : e.NameBeside (n.map (· + e.stop)) ∧
    (n.map (· + e.stop)).map e.move = n.map (· + e.swap.stop) := by
  refine ⟨⟨Or.inr (Nat.le_add_left _ _), Or.inr (Nat.le_add_left _ _),
    Or.inr (Nat.le_add_left _ _)⟩, ?_⟩
  show FoundName.mk n.text (e.move (n.start + e.stop)) (e.move (n.stop + e.stop))
    (e.move (n.matchStop + e.stop)) = FoundName.mk n.text _ _ _
  simp only [Nat.add_comm _ e.stop, move_stop_add, Nat.add_comm e.swap.stop]

theorem map_move_of_lt {names : List FoundName}
    (h : ∀ n ∈ names, n.start ≤ n.stop ∧ n.stop ≤ n.matchStop ∧ n.matchStop < e.start) :
    (∀ n ∈ names, e.NameBeside n) ∧ names.map (FoundName.map e.move) = names := by
  refine ⟨fun n hn => ?_, ?_⟩
  · obtain ⟨hle, hle', hlt⟩ := h n hn
    exact (e.nameBeside_of_lt hle hle' hlt).1
  · conv_rhs => rw [← List.map_id names]
    refine List.map_congr_left fun n hn => ?_
    obtain ⟨hle, hle', hlt⟩ := h n hn
    exact (e.nameBeside_of_lt hle hle' hlt).2

theorem map_move_add (names : List FoundName) :
    (∀ n ∈ names.map (FoundName.map (· + e.stop)), e.NameBeside n) ∧
      (names.map (FoundName.map (· + e.stop))).map (FoundName.map e.move) =
        names.map (FoundName.map (· + e.swap.stop)) := by
  refine ⟨fun n hn => ?_, ?_⟩
  · obtain ⟨m, -, rfl⟩ := List.mem_map.mp hn
    exact (e.nameBeside_add m).1
  · rw [List.map_map]
    exact List.map_congr_left fun n _ => (e.nameBeside_add n).2

/-- Names that lie before the lines stay where they are. -/
theorem map_move_textNames (hp : p.Names front body back f) {text : List Char}
    (hbefore : ∀ n ∈ textNames p lo text, n.matchStop < e.start) (keep : FoundName → Bool) :
    (∀ n ∈ (textNames p lo text).filter keep, e.NameBeside n) ∧
      ((textNames p lo text).filter keep).map (FoundName.map e.move) =
        (textNames p lo text).filter keep := by
  refine e.map_move_of_lt fun n hn => ?_
  have hn := List.mem_of_mem_filter hn
  obtain ⟨-, hle, hle', -⟩ := bounds_of_mem_textNames hp.finds hn
  exact ⟨hle, hle', hbefore n hn⟩

/-- Outside comments the names of a stretch move on with the text, if no match reaches over an end of
the lines. -/
theorem namesOutside_move (hp : p.Names front body back f) (hstarts : e.Starts lo lo')
    (hlo : onBoundary lo e.before.chars = true) (hhi : onBoundary hi e.before.chars = true)
    (hle : lo ≤ hi) (hbeside : e.Beside hi) (hdivides : e.Divides p lo hi)
    (hdivides' : e.swap.Divides p lo' (e.move hi)) :
    (∀ n ∈ e.before.namesOutside p lo hi, e.NameBeside n) ∧
      e.after.namesOutside p lo' (e.move hi) =
        (e.before.namesOutside p lo hi).map (FoundName.map e.move) := by
  rcases hstarts with ⟨hfront, rfl⟩ | ⟨hback, rfl⟩
  · have hlo' : onBoundary lo' e.after.chars = true := by
      rw [← hlo, e.onBoundary_front hfront]
      exact e.swap.onBoundary_front hfront
    rcases hbeside.cases with hlt | ⟨k, rfl⟩
    · obtain ⟨hbefore, hnames⟩ := e.namesOutside_front hp hlo hhi hle hlt
      have hhi' : onBoundary hi e.after.chars = true := by
        rw [← hhi, ← e.onBoundary_move hbeside, move_of_lt hlt]
      have hnames' := (e.swap.namesOutside_front hp hlo' hhi' hle hlt).2
      obtain ⟨hall, hmap⟩ := e.map_move_textNames hp hbefore _
      rw [hnames, move_of_lt hlt]
      exact ⟨hall, hnames'.trans hmap.symm⟩
    · obtain ⟨hbefore, hnames⟩ := e.namesOutside_across hp hlo hfront hdivides
      rw [move_stop_add] at hdivides' ⊢
      have hnames' := (e.swap.namesOutside_across hp hlo' hfront hdivides').2
      obtain ⟨hall, hmap⟩ := e.map_move_textNames hp hbefore _
      obtain ⟨hall', hmap'⟩ := e.map_move_add ((textNames p 0 (takeBytes k e.back)).filter
        fun n => !(commentSpans rules e.back).any (·.covers n.start))
      rw [hnames]
      refine ⟨fun n hn => (List.mem_append.mp hn).elim (hall n) (hall' n), ?_⟩
      rw [List.map_append, hmap, hmap']
      exact hnames'
  · obtain ⟨k, rfl⟩ := Nat.exists_eq_add_of_le hback
    obtain ⟨k', rfl⟩ := Nat.exists_eq_add_of_le (Nat.le_trans hback hle)
    rw [e.onBoundary_back] at hlo
    rw [move_stop_add, move_stop_add, e.namesOutside_back hp hlo]
    obtain ⟨hall, hmap⟩ := e.map_move_add ((textNames p k (sliceBytes k k' e.back)).filter
      fun n => !(commentSpans rules e.back).any (·.covers n.start))
    exact ⟨hall, (e.swap.namesOutside_back hp hlo).trans hmap.symm⟩

end Change

end Concordance
