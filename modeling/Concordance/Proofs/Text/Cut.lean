import Concordance.Proofs.Text.Lines

/-!
Cuts of a text at a byte, and how a text without a line feed starts a line.

Main statements: `dropBytes_append` and `takeBytes_append` (a cut behind a part of the text),
`onBoundary_iff` (a cut between two characters cuts the text in two parts) and
`linesWithEnds_append_of_notMem`.
-/

namespace Concordance.Text

section Bytes

theorem dropBytes_nil (n : Nat) : dropBytes n [] = [] := by
  cases n <;> rfl

theorem dropBytes_zero (cs : List Char) : dropBytes 0 cs = cs := by
  cases cs <;> rfl

theorem takeBytes_zero (cs : List Char) : takeBytes 0 cs = [] := by
  cases cs <;> rfl

theorem dropBytes_cons {n : Nat} (hn : n ≠ 0) (c : Char) (cs : List Char) :
    dropBytes n (c :: cs) = dropBytes (n - c.utf8Size) cs := by
  cases n with
  | zero => exact absurd rfl hn
  | succ n => rfl

theorem takeBytes_cons {n : Nat} (hn : n ≠ 0) (c : Char) (cs : List Char) :
    takeBytes n (c :: cs) = c :: takeBytes (n - c.utf8Size) cs := by
  cases n with
  | zero => exact absurd rfl hn
  | succ n => rfl

theorem utf8Size_add_ne_zero (c : Char) (n : Nat) : c.utf8Size + n ≠ 0 := by
  have := c.utf8Size_pos
  omega

theorem dropBytes_append (pre : List Char) (n : Nat) (post : List Char) :
    dropBytes (byteLength pre + n) (pre ++ post) = dropBytes n post := by
  induction pre with
  | nil => rw [byteLength_nil, Nat.zero_add, List.nil_append]
  | cons c pre ih =>
    rw [byteLength_cons, Nat.add_assoc, List.cons_append,
      dropBytes_cons (utf8Size_add_ne_zero c _), Nat.add_sub_cancel_left, ih]

theorem takeBytes_append (pre : List Char) (n : Nat) (post : List Char) :
    takeBytes (byteLength pre + n) (pre ++ post) = pre ++ takeBytes n post := by
  induction pre with
  | nil => rw [byteLength_nil, Nat.zero_add, List.nil_append, List.nil_append]
  | cons c pre ih =>
    rw [byteLength_cons, Nat.add_assoc, List.cons_append,
      takeBytes_cons (utf8Size_add_ne_zero c _), Nat.add_sub_cancel_left, ih, List.cons_append]

/-- A cut in the first part leaves the second one whole. -/
theorem takeBytes_append_of_le {n : Nat} {pre : List Char} (h : n ≤ byteLength pre)
    (post : List Char) : takeBytes n (pre ++ post) = takeBytes n pre := by
  induction pre generalizing n with
  | nil =>
    obtain rfl : n = 0 := Nat.le_zero.mp h
    rw [takeBytes_zero, takeBytes_zero]
  | cons c pre ih =>
    by_cases hn : n = 0
    · rw [hn, takeBytes_zero, takeBytes_zero]
    · rw [byteLength_cons] at h
      rw [List.cons_append, takeBytes_cons hn, takeBytes_cons hn, ih (by omega)]

theorem dropBytes_append_of_le {n : Nat} {pre : List Char} (h : n ≤ byteLength pre)
    (post : List Char) : dropBytes n (pre ++ post) = dropBytes n pre ++ post := by
  have hsame : takeBytes n pre ++ dropBytes n (pre ++ post) =
      takeBytes n pre ++ (dropBytes n pre ++ post) := by
    rw [← List.append_assoc, takeBytes_append_dropBytes, ← takeBytes_append_of_le h post,
      takeBytes_append_dropBytes]
  exact List.append_cancel_left hsame

theorem dropBytes_byteLength (pre post : List Char) :
    dropBytes (byteLength pre) (pre ++ post) = post := by
  have h := dropBytes_append pre 0 post
  rwa [Nat.add_zero, dropBytes_zero] at h

theorem takeBytes_byteLength (pre post : List Char) :
    takeBytes (byteLength pre) (pre ++ post) = pre := by
  have h := takeBytes_append pre 0 post
  rwa [Nat.add_zero, takeBytes_zero, List.append_nil] at h

/-- The text between two cuts. -/
theorem sliceBytes_append (pre mid post : List Char) :
    sliceBytes (byteLength pre) (byteLength pre + byteLength mid) (pre ++ mid ++ post) = mid := by
  rw [sliceBytes, Nat.add_sub_cancel_left, List.append_assoc, dropBytes_byteLength,
    takeBytes_byteLength]

theorem byteLength_takeBytes_le (n : Nat) (cs : List Char) :
    byteLength (takeBytes n cs) ≤ byteLength cs := by
  have hlength := congrArg byteLength (takeBytes_append_dropBytes n cs)
  rw [byteLength_append] at hlength
  omega

theorem takeBytes_prefix_of_le {m n : Nat} (h : m ≤ n) (cs : List Char) :
    takeBytes m cs <+: takeBytes n cs := by
  induction cs generalizing m n with
  | nil => cases m <;> exact List.nil_prefix
  | cons c cs ih =>
    by_cases hm : m = 0
    · subst hm
      exact List.nil_prefix
    · rw [takeBytes_cons hm, takeBytes_cons (by omega)]
      exact (List.prefix_cons_inj c).mpr (ih (by omega))

theorem byteLength_eq_zero_iff {text : List Char} : byteLength text = 0 ↔ text = [] := by
  cases text with
  | nil => simp
  | cons c text =>
    have := c.utf8Size_pos
    simp only [byteLength_cons, reduceCtorEq, iff_false]
    omega

theorem append_inj_byteLength {front front' back back' : List Char}
    (h : front ++ back = front' ++ back') (hlength : byteLength front = byteLength front') :
    front = front' ∧ back = back' := by
  have hfront : front = front' := by
    rw [← takeBytes_byteLength front back, h, hlength, takeBytes_byteLength]
  subst hfront
  exact ⟨rfl, List.append_cancel_left h⟩

/-- A character that is taken starts before the cut. -/
theorem byteLength_lt_of_takeBytes {n : Nat} {cs pre post : List Char} {c : Char}
    (h : takeBytes n cs = pre ++ c :: post) : byteLength pre < n := by
  induction cs generalizing n pre with
  | nil => cases n <;> simp [takeBytes] at h
  | cons a cs ih =>
    by_cases hn : n = 0
    · subst hn
      simp [takeBytes_zero] at h
    · rw [takeBytes_cons hn] at h
      cases pre with
      | nil =>
        rw [byteLength_nil]
        omega
      | cons b pre =>
        obtain ⟨rfl, hrest⟩ := List.cons.inj h
        have hlt := ih hrest
        rw [byteLength_cons]
        omega

/-- A byte of a text belongs to a character. -/
theorem exists_char_of_lt {n : Nat} {text : List Char} (h : n < byteLength text) :
    ∃ front c back, text = front ++ c :: back ∧ byteLength front ≤ n ∧
      n < byteLength front + c.utf8Size := by
  induction text generalizing n with
  | nil => cases h
  | cons c cs ih =>
    by_cases hn : n < c.utf8Size
    · exact ⟨[], c, cs, rfl, Nat.zero_le _, by simpa using hn⟩
    · rw [byteLength_cons] at h
      obtain ⟨front, d, back, rfl, hle, hlt⟩ := ih (n := n - c.utf8Size) (by omega)
      refine ⟨c :: front, d, back, rfl, ?_, ?_⟩ <;>
        rw [byteLength_cons] <;> omega

/-- Of two cuts of a text the second one lies behind the first if no fewer bytes stand before it. -/
theorem exists_append_of_byteLength_le {front front' back back' : List Char}
    (h : front ++ back = front' ++ back') (hle : byteLength front ≤ byteLength front') :
    ∃ mid, front' = front ++ mid ∧ back = mid ++ back' := by
  rcases List.append_eq_append_iff.mp h with ⟨mid, hfront, hback⟩ | ⟨mid, rfl, rfl⟩
  · exact ⟨mid, hfront, hback⟩
  · rw [byteLength_append] at hle
    obtain rfl := byteLength_eq_zero_iff.mp (by omega : byteLength mid = 0)
    exact ⟨[], by simp, rfl⟩

/-- A cut further on in a text lies behind the character at the first one. -/
theorem exists_of_byteLength_lt {front front' back back' : List Char} {c : Char}
    (h : front ++ c :: back = front' ++ back') (hlt : byteLength front < byteLength front') :
    ∃ mid, front' = front ++ c :: mid ∧ back = mid ++ back' := by
  obtain ⟨mid, rfl, hmid⟩ := exists_append_of_byteLength_le h hlt.le
  cases mid with
  | nil => simp at hlt
  | cons d mid =>
    obtain ⟨rfl, hback⟩ := List.cons.inj hmid
    exact ⟨mid, rfl, hback⟩

/-- A cut behind the start of a character is behind all of it. -/
theorem add_utf8Size_le_of_lt {front front' back back' : List Char} {c : Char}
    (h : front ++ c :: back = front' ++ back') (hlt : byteLength front < byteLength front') :
    byteLength front + c.utf8Size ≤ byteLength front' := by
  obtain ⟨mid, rfl, -⟩ := exists_of_byteLength_lt h hlt
  rw [byteLength_append, byteLength_cons]
  omega

theorem byteLength_concat (pre : List Char) (c : Char) :
    byteLength (pre ++ [c]) = byteLength pre + c.utf8Size := by
  rw [byteLength_append, byteLength_cons, byteLength_nil, Nat.add_zero]

theorem length_le_byteLength (cs : List Char) : cs.length ≤ byteLength cs := by
  induction cs with
  | nil => exact Nat.le_refl 0
  | cons c cs ih =>
    have hpos := c.utf8Size_pos
    rw [List.length_cons, byteLength_cons]
    omega

end Bytes

section Boundary

variable {m n : Nat} {cs pre post : List Char}

/-- A cut between two characters leaves the part with that many bytes and the rest. -/
theorem onBoundary_iff :
    onBoundary n cs = true ↔ ∃ pre post, cs = pre ++ post ∧ byteLength pre = n := by
  rw [onBoundary, beq_iff_eq]
  constructor
  · intro h
    exact ⟨takeBytes n cs, dropBytes n cs, (takeBytes_append_dropBytes n cs).symm, h⟩
  · rintro ⟨pre, post, rfl, rfl⟩
    rw [takeBytes_byteLength]

theorem onBoundary_byteLength (pre post : List Char) :
    onBoundary (byteLength pre) (pre ++ post) = true :=
  onBoundary_iff.mpr ⟨pre, post, rfl, rfl⟩

theorem onBoundary_zero (cs : List Char) : onBoundary 0 cs = true :=
  onBoundary_byteLength [] cs

theorem le_of_onBoundary (h : onBoundary n cs = true) : n ≤ byteLength cs := by
  obtain ⟨pre, post, rfl, rfl⟩ := onBoundary_iff.mp h
  rw [byteLength_append]
  exact Nat.le_add_right _ _

/-- A character has a cut behind it. -/
theorem onBoundary_behind (pre : List Char) (c : Char) (post : List Char) :
    onBoundary (byteLength pre + c.utf8Size) (pre ++ c :: post) = true :=
  onBoundary_iff.mpr ⟨pre ++ [c], post, by rw [List.append_cons], byteLength_concat pre c⟩

/-- A cut in what follows a cut. -/
theorem onBoundary_add (hm : onBoundary m cs = true) (hn : onBoundary n (dropBytes m cs) = true) :
    onBoundary (m + n) cs = true := by
  obtain ⟨pre, post, rfl, rfl⟩ := onBoundary_iff.mp hm
  rw [dropBytes_byteLength] at hn
  obtain ⟨mid, rest, rfl, rfl⟩ := onBoundary_iff.mp hn
  rw [← List.append_assoc, ← byteLength_append]
  exact onBoundary_byteLength (pre ++ mid) rest

theorem onBoundary_of_takeBytes (h : onBoundary n (takeBytes m cs) = true) :
    onBoundary n cs = true := by
  obtain ⟨pre, post, htake, rfl⟩ := onBoundary_iff.mp h
  refine onBoundary_iff.mpr ⟨pre, post ++ dropBytes m cs, ?_, rfl⟩
  rw [← List.append_assoc, ← htake, takeBytes_append_dropBytes]

/-- A cut in a slice that starts at a cut. -/
theorem onBoundary_add_slice {start stop : Nat} (hstart : onBoundary start cs = true)
    (hn : onBoundary n (sliceBytes start stop cs) = true) : onBoundary (start + n) cs = true :=
  onBoundary_add hstart (onBoundary_of_takeBytes hn)

end Boundary

section Lines

theorem linesWithEnds_cons_of_ne {c : Char} (hc : c ≠ '\n') {text line : List Char}
    {rest : List (List Char)} (h : linesWithEnds text = line :: rest) :
    linesWithEnds (c :: text) = (c :: line) :: rest := by
  unfold linesWithEnds at h ⊢
  rw [cutAfter, if_neg (by simpa using hc), h]

theorem linesWithEnds_newline_cons (text : List Char) :
    linesWithEnds ('\n' :: text) = ['\n'] :: linesWithEnds text := by
  unfold linesWithEnds
  rw [cutAfter, if_pos (by simp)]

theorem linesWithEnds_append_of_notMem {mid : List Char} (hmid : '\n' ∉ mid) {text line : List Char}
    {rest : List (List Char)} (h : linesWithEnds text = line :: rest) :
    linesWithEnds (mid ++ text) = (mid ++ line) :: rest := by
  induction mid with
  | nil => exact h
  | cons c mid ih =>
    simp only [List.mem_cons, not_or] at hmid
    exact linesWithEnds_cons_of_ne (Ne.symm hmid.1) (ih hmid.2)

end Lines

end Concordance.Text
