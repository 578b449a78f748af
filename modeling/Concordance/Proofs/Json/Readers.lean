import Mathlib.Data.List.Forall2
import Concordance.Proofs.Json.Pieces

/-!
Readers take a value from its written form, whatever follows it.

`Takes read value a` says that `read` gives `a` for the written `value` and leaves what follows. It is
shown once for each kind of reader; that of a list follows from that of its items, and that of a
record from that of its fields (`Fills`).
-/

namespace Concordance.Json

open Text

variable {α σ : Type}

/-- The reader gives `a` for the written value, at any depth and behind any white space, and leaves
what follows it. -/
def Takes (read : Reader α) (value : Json) (a : α) : Prop :=
  ∀ depth space rest, AllSpace space → Bounded rest →
    read (space ++ (value.render depth ++ rest)) = .ok (a, rest)

section Scalars

theorem takes_readText (s : String) : Takes readText (.text s) s := by
  intro depth space rest hspace _
  obtain ⟨cs, hcs, htail⟩ := exists_string s rest
  rw [render, hcs, readText, atValue_append _ hspace (by decide), if_pos rfl, htail]
  simp [Except.map]

theorem takes_readCount {n : Nat} (hn : n ≤ maxNumber) (expected : String) :
    Takes (readCount expected) (.number n) n := by
  intro depth space rest hspace hrest
  have htail := numberTail_decimal hn hrest
  obtain ⟨c, cs, hcs, hdigit⟩ := exists_decimal_cons n
  rw [hcs, List.cons_append] at htail
  rw [render, hcs, List.cons_append, readCount, atValue_append _ hspace (isSpace_of_isDigit hdigit),
    if_neg (ne_of_isDigit hdigit (by decide)), if_pos hdigit, htail]
  rfl

theorem takes_readChoice {choices : List (String × α)} {name : String} {a : α}
    (h : choices.lookup name = some a) : Takes (readChoice choices) (.text name) a := by
  intro depth space rest hspace _
  obtain ⟨cs, hcs, htail⟩ := exists_string name rest
  rw [render, hcs, readChoice, atValue_append _ hspace (by decide), if_pos rfl, choiceTail, htail]
  simp [Except.bind, h]

/-- A text that is there is read as one; only `null` stands for nothing. -/
theorem Takes.readOptional {read : Reader α} {s : String} {a : α} (h : Takes read (.text s) a) :
    Takes (readOptional read) (.text s) (some a) := by
  intro depth space rest hspace hrest
  have hread := h depth [] rest allSpace_nil hrest
  obtain ⟨cs, hcs, -⟩ := exists_string s rest
  rw [List.nil_append, render, hcs] at hread
  rw [render, hcs, Json.readOptional, skipSpace_append _ hspace (by decide)]
  simp [hread, Except.map]

end Scalars

section Lists

/-- A written value starts with a character that is neither white space nor the end of a list. -/
theorem exists_render_cons (depth : Nat) (value : Json) :
    ∃ c cs, value.render depth = c :: cs ∧ isSpace c = false ∧ c ≠ ']' := by
  cases value with
  | null => exact ⟨_, _, rfl, by decide, by decide⟩
  | bool value => cases value <;> exact ⟨_, _, rfl, by decide, by decide⟩
  | number n =>
    obtain ⟨c, cs, hcs, hdigit⟩ := exists_decimal_cons n
    exact ⟨c, cs, hcs, isSpace_of_isDigit hdigit, ne_of_isDigit hdigit (by decide)⟩
  | text s =>
    obtain ⟨cs, hcs, -⟩ := exists_string s []
    exact ⟨'"', cs, by rw [render, ← hcs, List.append_nil], by decide, by decide⟩
  | list items =>
    rw [render]
    split <;> exact ⟨_, _, rfl, by decide, by decide⟩
  | record fields =>
    rw [render]
    split <;> exact ⟨_, _, rfl, by decide, by decide⟩

/-- The comma before what is left of a list or record, unless that is its start or its end. -/
def comma {β : Type} (first : Bool) (left : List β) : List Char :=
  if first || left.isEmpty then [] else [',']

theorem bounded_comma_append {β : Type} (left : List β) (more : List Char)
    (h : left = [] → Bounded more) : Bounded (comma false left ++ more) := by
  cases left with
  | nil => exact h rfl
  | cons b left => exact bounded_comma more

theorem nextItem_item (first : Bool) (depth : Nat) (item : Json) (more : List Json) (rest : List Char) :
    nextItem first (comma first (item :: more) ++ (newLine depth ++ (item.render depth ++ rest))) =
      .ok (some (item.render depth ++ rest)) := by
  obtain ⟨c, cs, hcs, hspace, hend⟩ := exists_render_cons depth item
  have hskip := skipSpace_append (cs ++ rest) (allSpace_newLine depth) hspace
  cases first with
  | true => simp [comma, nextItem, hcs, hskip]
  | false =>
    have hcomma := skipSpace_append (c := ',') (newLine depth ++ c :: (cs ++ rest))
      allSpace_nil (by decide)
    simp only [List.nil_append] at hcomma
    simp [comma, nextItem, hcs, hskip, hcomma, hend]

theorem nextItem_end (first : Bool) (depth : Nat) (rest : List Char) :
    nextItem first (newLine depth ++ ']' :: rest) = .ok none := by
  simp [nextItem, skipSpace_append _ (allSpace_newLine depth) (c := ']') (by decide)]

/-- The items of a list are read up to its end. -/
theorem readItems_renderItems {read : Reader α} {items : List Json} {as : List α}
    (h : List.Forall₂ (Takes read) items as) (depth close : Nat) (rest : List Char) (first : Bool)
    {fuel : Nat} (hfuel : items.length < fuel) :
    readItems read fuel first
        (comma first items ++ (renderItems depth items ++ (newLine close ++ ']' :: rest))) =
      .ok (as, ']' :: rest) := by
  induction h generalizing first fuel with
  | nil =>
    obtain ⟨fuel, rfl⟩ := Nat.exists_eq_succ_of_ne_zero (Nat.ne_of_gt hfuel)
    simp [comma, renderItems, readItems, nextItem_end,
      skipSpace_append _ (allSpace_newLine close) (c := ']') (by decide)]
  | @cons item a items as hitem hitems ih =>
    obtain ⟨fuel, rfl⟩ := Nat.exists_eq_succ_of_ne_zero (Nat.ne_zero_of_lt hfuel)
    have hfewer : items.length < fuel := by simpa using hfuel
    have hmore := ih false hfewer
    have hread := hitem depth [] _ allSpace_nil (bounded_comma_append items
      (renderItems depth items ++ (newLine close ++ ']' :: rest))
      fun hnil => by subst hnil; exact bounded_newLine close _)
    rw [List.nil_append] at hread
    have hsplit : renderItems depth (item :: items) ++ (newLine close ++ ']' :: rest) =
        newLine depth ++ (item.render depth ++
          (comma false items ++ (renderItems depth items ++ (newLine close ++ ']' :: rest)))) := by
      simp [renderItems, comma]
    simp only [hsplit, readItems, nextItem_item, hread, hmore]

theorem length_le_renderItems (depth : Nat) (items : List Json) :
    items.length ≤ (renderItems depth items).length := by
  induction items with
  | nil => exact Nat.zero_le _
  | cons item items ih =>
    simp only [renderItems, newLine, List.length_append, List.length_cons]
    omega

/-- A list is read when its items are. -/
theorem takes_readList {read : Reader α} {items : List Json} {as : List α}
    (h : List.Forall₂ (Takes read) items as) : Takes (readList read) (.list items) as := by
  intro depth space rest hspace _
  cases h with
  | nil =>
    have hskip := skipSpace_append (c := ']') rest allSpace_nil (by decide)
    rw [List.nil_append] at hskip
    have hrender : (Json.list []).render depth ++ rest = '[' :: ']' :: rest := rfl
    rw [hrender, readList, atValue_append _ hspace (by decide), if_pos rfl]
    simp [readItems, nextItem, listEnd, hskip, Except.bind, Except.map]
  | @cons item a items as hitem hitems =>
    have hskip := skipSpace_append (c := ']') rest allSpace_nil (by decide)
    rw [List.nil_append] at hskip
    have hrender : (Json.list (item :: items)).render depth ++ rest =
        '[' :: (comma true (item :: items) ++
          (renderItems (depth + 1) (item :: items) ++ (newLine depth ++ ']' :: rest))) := by
      simp [render, comma]
    have hlength := length_le_renderItems (depth + 1) (item :: items)
    rw [hrender, readList, atValue_append _ hspace (by decide), if_pos rfl,
      readItems_renderItems (.cons hitem hitems) _ _ _ _ (by simp only [List.length_append]; omega)]
    simp [listEnd, hskip, Except.bind, Except.map]

end Lists

section Records

/-- The written fields, put into a record one after another, lead from one record to the other. -/
inductive Fills (fields : List (Field σ)) : σ → List (String × Json) → σ → Prop
  | nil (s : σ) : Fills fields s [] s
  | cons {s t u : σ} {name : String} {value : Json} {written : List (String × Json)}
      (field : Field σ) (hfield : fields.find? (·.name == name) = some field)
      (htakes : Takes (field.read s) value t) (hwritten : Fills fields t written u) :
      Fills fields s ((name, value) :: written) u

theorem Fills.append {fields : List (Field σ)} {s t u : σ} {first second : List (String × Json)}
    (h : Fills fields s first t) (h' : Fills fields t second u) :
    Fills fields s (first ++ second) u := by
  induction h with
  | nil => exact h'
  | cons field hfield htakes _ ih => exact .cons field hfield htakes (ih h')

/-- A field takes the values that the reader of its content takes. -/
theorem Takes.field {read : Reader α} {value : Json} {a : α} (h : Takes read value a)
    {name : String} {needed : Bool} {put : σ → α → σ} {s : σ} :
    Takes ((Field.of name needed read put).read s) value (put s a) := by
  intro depth space rest hspace hrest
  simp [Field.of, h depth space rest hspace hrest, Except.map]

theorem nextName_name (first : Bool) (depth : Nat) (name : String) (value : Json)
    (more : List (String × Json)) (rest : List Char) :
    nextName first (comma first ((name, value) :: more) ++ (newLine depth ++ (string name ++ rest))) =
      .ok (some (name.toList, rest)) := by
  obtain ⟨cs, hcs, htail⟩ := exists_string name rest
  have hskip := skipSpace_append (c := '"') cs (allSpace_newLine depth) (by decide)
  cases first with
  | true => simp [comma, nextName, hcs, hskip, htail, Except.map]
  | false =>
    have hcomma := skipSpace_append (c := ',') (newLine depth ++ '"' :: cs)
      allSpace_nil (by decide)
    simp only [List.nil_append] at hcomma
    simp [comma, nextName, hcs, hskip, hcomma, htail, Except.map]

theorem nextName_end (first : Bool) (depth : Nat) (rest : List Char) :
    nextName first (newLine depth ++ '}' :: rest) = .ok none := by
  simp [nextName, skipSpace_append _ (allSpace_newLine depth) (c := '}') (by decide)]

/-- The fields of a record are read up to its end, when no name is there twice. -/
theorem readNamed_renderFields {fields : List (Field σ)} {s t : σ} {written : List (String × Json)}
    (h : Fills fields s written t) (hnodup : (written.map Prod.fst).Nodup) (depth close : Nat)
    (rest : List Char) (first : Bool) {seen : List String}
    (hseen : ∀ name ∈ written.map Prod.fst, name ∉ seen) {fuel : Nat} (hfuel : written.length < fuel) :
    readNamed fields fuel first seen s
        (comma first written ++ (renderFields depth written ++ (newLine close ++ '}' :: rest))) =
      .ok ((t, (written.map Prod.fst).reverse ++ seen), '}' :: rest) := by
  induction h generalizing first fuel seen with
  | nil s =>
    obtain ⟨fuel, rfl⟩ := Nat.exists_eq_succ_of_ne_zero (Nat.ne_of_gt hfuel)
    simp [comma, renderFields, readNamed, nextName_end,
      skipSpace_append _ (allSpace_newLine close) (c := '}') (by decide)]
  | @cons s t u name value written field hfield htakes _ ih =>
    obtain ⟨fuel, rfl⟩ := Nat.exists_eq_succ_of_ne_zero (Nat.ne_zero_of_lt hfuel)
    rw [List.map_cons, List.nodup_cons] at hnodup
    have hfewer : written.length < fuel := by simpa using hfuel
    have hunseen : ∀ other ∈ written.map Prod.fst, other ∉ name :: seen := by
      intro other hother hmem
      rcases List.mem_cons.mp hmem with rfl | hmem
      · exact hnodup.1 hother
      · exact hseen other (List.mem_cons_of_mem name hother) hmem
    have hmore := ih hnodup.2 false hunseen hfewer
    have hread := htakes depth [' '] _ (by simp [AllSpace, isSpace]) (bounded_comma_append written
      (renderFields depth written ++ (newLine close ++ '}' :: rest))
      fun hnil => by subst hnil; exact bounded_newLine close _)
    have hcolon : ∀ more : List Char, colon (':' :: more) = .ok more := fun more => by
      simp [colon, skipSpace, isSpace]
    have hsplit : renderFields depth ((name, value) :: written) ++ (newLine close ++ '}' :: rest) =
        newLine depth ++ (string name ++ (':' :: ([' '] ++ (value.render depth ++
          (comma false written ++ (renderFields depth written ++ (newLine close ++ '}' :: rest))))))) := by
      simp [renderFields, comma]
    have hnew : seen.contains name = false := by
      simpa using hseen name List.mem_cons_self
    simp only [hsplit, readNamed, nextName_name, String.ofList_toList, hfield, hnew, hcolon,
      Except.bind, hread, hmore]
    simp

theorem length_le_renderFields (depth : Nat) (fields : List (String × Json)) :
    fields.length ≤ (renderFields depth fields).length := by
  induction fields with
  | nil => exact Nat.zero_le _
  | cons field fields ih =>
    simp only [renderFields, newLine, List.length_append, List.length_cons]
    omega

/-- A record is read when its fields are, no name is there twice and no needed one is missing. -/
theorem takes_readRecord {fields : List (Field σ)} {blank s : σ} {written : List (String × Json)}
    (name : String) (hfill : Fills fields blank written s) (hnodup : (written.map Prod.fst).Nodup)
    (hneeded : ∀ field ∈ fields, field.needed = true → field.name ∈ written.map Prod.fst)
    (hne : written ≠ []) : Takes (readRecord name fields blank) (.record written) s := by
  intro depth space rest hspace _
  have hrender : (Json.record written).render depth ++ rest =
      '{' :: (comma true written ++
        (renderFields (depth + 1) written ++ (newLine depth ++ '}' :: rest))) := by
    simp [render, comma, hne]
  have hlength := length_le_renderFields (depth + 1) written
  have hnone : (fields.find? fun field =>
      field.needed && !((written.map Prod.fst).reverse ++ []).contains field.name) = none := by
    rw [List.find?_eq_none]
    intro field hfield
    simpa using fun hneed => hneeded field hfield hneed
  rw [hrender, readRecord, atValue_append _ hspace (by decide), if_neg (by decide), if_pos rfl,
    readNamed_renderFields hfill hnodup _ _ _ _ (by simp)
      (by simp only [List.length_append]; omega)]
  simp only [Except.bind, hnone]
  simp [passRecordEnd, skipSpace, isSpace]

end Records

/-- A whole text is read when its value is; a line feed may follow. -/
theorem Takes.parse_pretty {read : Reader α} {value : Json} {a : α} (h : Takes read value a) :
    parse read (value.pretty ++ ['\n']) = .ok a := by
  have hread := h 0 [] ['\n'] allSpace_nil (by simp [Bounded])
  rw [List.nil_append] at hread
  rw [parse, pretty, hread]
  rfl

end Concordance.Json
