import Concordance.Definition.JavaScript
import Concordance.Definition.Php
import Concordance.Definition.Stylesheet
import Concordance.Proofs.Block.Defines
import Concordance.Proofs.Definition.Anchor

/-!
The patterns that find names: which characters a name is made of, and what stands next to it.

For every pattern there is a statement `finds_…` that cuts it into what comes before the name, the
name, and what comes after it. Where a pattern allows no character of an identifier next to the name, or
asks for a quote there, `…_before` and `…_after` say so.
-/

namespace Concordance

open Text Pattern

/-- No character of an identifier, or none at all. -/
def IdentEdge (o : Option Char) : Prop :=
  edge isIdentChar o = true

theorem identEdge_some {a : Char} (h : isIdentChar a = false) : IdentEdge (some a) := by
  simp [IdentEdge, edge, h]

theorem identEdge_of_isBlank {a : Char} (h : isBlank a = true) : IdentEdge (some a) :=
  identEdge_some (isIdentChar_of_isBlank h)

theorem isWordChar_of_isAlpha {c : Char} (h : c.isAlpha = true) : isWordChar c = true := by
  have halnum : c.isAlphanum = true := by simp [Char.isAlphanum, h]
  simp [isWordChar, toNat_lt_of_isAlphanum halnum, halnum]

/-- A quote. -/
def QuoteMark (o : Option Char) : Prop :=
  ∃ q, o = some q ∧ isQuote q = true

/-- White space is no part of a word. -/
theorem isWordChar_of_isBlank {c : Char} (h : isBlank c = true) : isWordChar c = false := by
  by_cases hascii : c.toNat < 0x80
  · have hall : ∀ n < 0x80, inRanges blankRanges n = true →
        isWordChar (Char.ofNat n) = false := by
      decide +kernel
    rw [← Char.ofNat_toNat c]
    exact hall c.toNat hascii h
  · have hranges : inRanges wordRanges c.toNat = false :=
      inRanges_of_isBlank (by decide +kernel) h
    simp [isWordChar, hascii, hranges]

namespace Pattern

section Edges

theorem literal_eq {text : String} {a : Char} (h : text.toList = [a]) :
    literal text = .seq (.one (· == a)) .empty := by
  rw [literal, h]
  rfl

theorem endsIn_literal {text : String} {a : Char} (h : text.toList = [a])
    (ha : isIdentChar a = false) : (literal text).EndsIn IdentEdge := by
  rw [literal_eq h]
  refine EndsIn.seq (endsIn_one fun b hb => ?_) keeps_empty
  obtain rfl : b = a := by simpa using hb
  exact identEdge_some ha

theorem startsIn_literal {text : String} {a : Char} (h : text.toList = [a])
    (ha : isIdentChar a = false) : (literal text).StartsIn NoIdentChar := by
  rw [literal_eq h]
  refine StartsIn.seq (startsIn_one fun b hb => ?_)
  obtain rfl : b = a := by simpa using hb
  exact ⟨b, rfl, ha⟩

section Blank

variable {P : Option Char → Prop}

theorem keeps_blanks_of (hblank : ∀ a, isBlank a = true → P (some a)) : blanks.Keeps P :=
  keeps_run hblank

theorem endsIn_gap_of (hblank : ∀ a, isBlank a = true → P (some a)) : gap.EndsIn P :=
  EndsIn.seq (endsIn_one hblank) (keeps_blanks_of hblank)

theorem endsIn_indent_of (hnone : P none) (hblank : ∀ a, isBlank a = true → P (some a)) :
    indent.EndsIn P := by
  refine EndsIn.seq (endsIn_lineStart hnone (hblank '\n' (by decide))) (keeps_run fun a ha => ?_)
  obtain rfl | rfl : a = ' ' ∨ a = '\t' := by simpa using ha
  · exact hblank ' ' (by decide)
  · exact hblank '\t' (by decide)

end Blank

theorem endsIn_gap : gap.EndsIn IdentEdge :=
  endsIn_gap_of fun _ => identEdge_of_isBlank

theorem StartsIn.blanks_seq {q : Pattern} (hq : q.StartsIn NoIdentChar) :
    (Pattern.seq blanks q).StartsIn NoIdentChar :=
  StartsIn.run_seq (fun a ha => ⟨a, rfl, isIdentChar_of_isBlank ha⟩) hq

end Edges

end Pattern

namespace JavaScript

/-- A character that a name may hold. -/
def isMemberChar (c : Char) : Bool :=
  isWordChar c || c == '$' || c == '#'

theorem readsOnly_identifier : identifier.ReadsOnly isMemberChar := by
  refine ReadsOnly.seq (readsOnly_one fun a ha => ?_) (readsOnly_run fun a ha => ?_)
  · simp only [Bool.or_eq_true] at ha
    rcases ha with (ha | ha) | ha
    · simp [isMemberChar, isWordChar_of_isAlpha ha]
    · obtain rfl : a = '_' := by simpa using ha
      decide
    · simp [isMemberChar, ha]
  · simp only [Bool.or_eq_true] at ha
    simp only [isMemberChar, Bool.or_eq_true]
    exact Or.inl ha

theorem readsOnly_memberName : memberName.ReadsOnly isMemberChar := by
  refine ReadsOnly.seq (ReadsOnly.optional (readsOnly_literal ?_)) readsOnly_identifier
  decide

theorem advances_identifier : identifier.Advances :=
  Advances.seq advances_one

theorem finds_classHead : classHead.Finds
    [indent, exported, literal "class", gap] identifier [] isMemberChar :=
  ⟨fun _ _ h => h, ⟨rfl, rfl, rfl⟩, advances_identifier, readsOnly_identifier⟩

theorem finds_functionHead : functionHead.Finds
    [indent, exported, async, literal "function", blanks, optional (literal "*"), blanks]
    identifier [blanks, literal "("] isMemberChar :=
  ⟨fun _ _ h => h, ⟨rfl, rfl, rfl⟩, advances_identifier, readsOnly_identifier⟩

theorem finds_assignedFunction : assignedFunction.Finds
    [indent, optional (.seq (literal "export") gap), keyword ["const", "let", "var"], gap]
    identifier
    [blanks, literal "=", blanks, async,
      oneOf [.seq (literal "function") .wordEdge,
        all [parameters, blanks, literal "=>"],
        all [identifier, blanks, literal "=>"]]] isMemberChar :=
  ⟨fun _ _ h => h, ⟨rfl, rfl, rfl⟩, advances_identifier, readsOnly_identifier⟩

theorem finds_methodHead : methodHead.Finds
    [indent, .many true (all [keyword ["static", "async", "get", "set"], gap]),
      optional (literal "*"), blanks]
    memberName [blanks, literal "("] isMemberChar :=
  ⟨fun _ _ h => h, ⟨rfl, rfl, rfl⟩, Advances.after advances_identifier, readsOnly_memberName⟩

section Before

variable {P : Option Char → Prop}

/-- Before a method stands the start of the class or of a line, white space or a star. -/
theorem methodHead_endsIn (hnone : P none) (hblank : ∀ a, isBlank a = true → P (some a))
    (hstar : P (some '*')) : (all [indent,
    .many true (all [keyword ["static", "async", "get", "set"], gap]), optional (literal "*"),
    blanks]).EndsIn P := by
  refine EndsIn.seq (endsIn_indent_of hnone hblank) (Keeps.seq
    (Keeps.many (EndsIn.after (EndsIn.seq (endsIn_gap_of hblank) keeps_empty)).keeps)
    (Keeps.seq (Keeps.optional ?_) (Keeps.seq (keeps_blanks_of hblank) keeps_empty)))
  rw [literal_eq (a := '*') (by decide)]
  refine (EndsIn.seq (endsIn_one fun b hb => ?_) keeps_empty).keeps
  obtain rfl : b = '*' := by simpa using hb
  exact hstar

theorem arrowField_endsIn (hnone : P none) (hblank : ∀ a, isBlank a = true → P (some a)) :
    (all [indent, optional (.seq (literal "static") gap)]).EndsIn P :=
  EndsIn.seq (endsIn_indent_of hnone hblank)
    (Keeps.seq (Keeps.optional (EndsIn.after (endsIn_gap_of hblank)).keeps) keeps_empty)

end Before

theorem methodHead_before : (all [indent,
    .many true (all [keyword ["static", "async", "get", "set"], gap]), optional (literal "*"),
    blanks]).EndsIn IdentEdge :=
  methodHead_endsIn rfl (fun _ => identEdge_of_isBlank) (identEdge_some (by decide))

theorem methodHead_after : (all [blanks, literal "("]).StartsIn NoIdentChar :=
  StartsIn.blanks_seq (StartsIn.seq (startsIn_literal (a := '(') (by decide) (by decide)))

theorem finds_arrowField : arrowField.Finds
    [indent, optional (.seq (literal "static") gap)] memberName
    [blanks, literal "=", blanks, async, .alt parameters identifier, blanks, literal "=>"]
    isMemberChar :=
  ⟨fun _ _ h => h, ⟨rfl, rfl, rfl⟩, Advances.after advances_identifier, readsOnly_memberName⟩

theorem arrowField_before :
    (all [indent, optional (.seq (literal "static") gap)]).EndsIn IdentEdge :=
  arrowField_endsIn rfl fun _ => identEdge_of_isBlank

theorem arrowField_after : (all [blanks, literal "=", blanks, async, .alt parameters identifier,
    blanks, literal "=>"]).StartsIn NoIdentChar :=
  StartsIn.blanks_seq (StartsIn.seq (startsIn_literal (a := '=') (by decide) (by decide)))

theorem finds_firedEvent : firedEvent.Finds
    [.alt (all [.wordEdge, literal "new", gap, optional (literal "Custom"), literal "Event"])
      (literal ".trigger"), blanks, literal "(", blanks, quote]
    (someOf fun c => c != '\'' && c != '"' && c != '`' && c != '\n') [quote] (· != '\n') := by
  refine ⟨fun _ _ h => h, ⟨rfl, rfl, rfl⟩, Advances.seq advances_one, ?_⟩
  exact ReadsOnly.seq (readsOnly_one fun _ ha => (Bool.and_eq_true_iff.mp ha).2)
    (readsOnly_run fun _ ha => (Bool.and_eq_true_iff.mp ha).2)

theorem quoteMark_of_quote {a : Char} (h : (a == '\'' || a == '"' || a == '`') = true) :
    QuoteMark (some a) :=
  ⟨a, rfl, h⟩

theorem firedEvent_before : (all [.alt (all [.wordEdge, literal "new", gap,
    optional (literal "Custom"), literal "Event"]) (literal ".trigger"), blanks, literal "(", blanks,
    quote]).EndsIn QuoteMark :=
  EndsIn.after (EndsIn.after (EndsIn.after (EndsIn.after
    (EndsIn.seq (endsIn_one fun _ => quoteMark_of_quote) keeps_empty))))

theorem firedEvent_after : (all [quote]).StartsIn QuoteMark :=
  StartsIn.seq (startsIn_one fun _ => quoteMark_of_quote)

end JavaScript

namespace Php

theorem readsOnly_identifier : identifier.ReadsOnly isWordChar := by
  refine ReadsOnly.seq (readsOnly_one fun a ha => ?_) (readsOnly_run fun a ha => ha)
  rcases Bool.or_eq_true_iff.mp ha with ha | ha
  · exact isWordChar_of_isAlpha ha
  · obtain rfl : a = '_' := by simpa using ha
    decide

theorem advances_identifier : identifier.Advances :=
  Advances.seq advances_one

theorem finds_classHead : classHead.Finds
    [indent, .many true (all [keyword ["abstract", "final", "readonly"], gap]),
      keyword ["class", "interface", "trait", "enum"], gap]
    identifier [] isWordChar :=
  ⟨fun _ _ h => h, ⟨rfl, rfl, rfl⟩, advances_identifier, readsOnly_identifier⟩

theorem finds_functionHead : functionHead.Finds
    [indent, literal "function", gap, optional (literal "&")] identifier [blanks, literal "("]
    isWordChar :=
  ⟨fun _ _ h => h, ⟨rfl, rfl, rfl⟩, advances_identifier, readsOnly_identifier⟩

theorem finds_methodHead : methodHead.Finds
    [indent,
      .many true
        (all [keyword ["public", "protected", "private", "static", "abstract", "final"], gap]),
      literal "function", gap, optional (literal "&")]
    identifier [blanks, literal "("] isWordChar := by
  refine ⟨fun c d h => ?_, ⟨rfl, rfl, rfl⟩, advances_identifier, readsOnly_identifier⟩
  obtain ⟨e, he, h⟩ := mem_ends_seq.mp h
  obtain ⟨g, hg, h⟩ := mem_ends_seq.mp h
  obtain ⟨d', hd', h⟩ := mem_ends_seq.mp h
  obtain rfl := List.mem_singleton.mp h
  exact mem_ends_seq.mpr ⟨e, he, mem_ends_seq.mpr ⟨g, hg, hd'⟩⟩

/-- The word `function` and what may stand between it and the name. -/
theorem functionName_before :
    (all [literal "function", gap, optional (literal "&")]).EndsIn IdentEdge :=
  EndsIn.after (EndsIn.seq endsIn_gap
    (Keeps.seq (Keeps.optional (endsIn_literal (a := '&') (by decide) (by decide)).keeps)
      keeps_empty))

theorem functionHead_before :
    (all [indent, literal "function", gap, optional (literal "&")]).EndsIn IdentEdge :=
  EndsIn.after functionName_before

theorem methodHead_before : (all [indent,
    .many true
      (all [keyword ["public", "protected", "private", "static", "abstract", "final"], gap]),
    literal "function", gap, optional (literal "&")]).EndsIn IdentEdge :=
  EndsIn.after (EndsIn.after functionName_before)

theorem functionName_after : (all [blanks, literal "("]).StartsIn NoIdentChar :=
  StartsIn.blanks_seq (StartsIn.seq (startsIn_literal (a := '(') (by decide) (by decide)))

theorem isIdentChar_of_quote {a : Char} (h : (a == '\'' || a == '"') = true) :
    isIdentChar a = false := by
  obtain rfl | rfl : a = '\'' ∨ a = '"' := by simpa using h
  · decide
  · decide

theorem finds_definedConstant : definedConstant.Finds
    [.wordEdge, literal "define", blanks, literal "(", blanks, quote] identifier [quote]
    isWordChar :=
  ⟨fun _ _ h => h, ⟨rfl, rfl, rfl⟩, advances_identifier, readsOnly_identifier⟩

theorem definedConstant_before :
    (all [.wordEdge, literal "define", blanks, literal "(", blanks, quote]).EndsIn IdentEdge :=
  EndsIn.after (EndsIn.after (EndsIn.after (EndsIn.after (EndsIn.after
    (EndsIn.seq (endsIn_one fun _ h => identEdge_some (isIdentChar_of_quote h)) keeps_empty)))))

theorem definedConstant_after : (all [quote]).StartsIn NoIdentChar :=
  StartsIn.seq (startsIn_one fun a h => ⟨a, rfl, isIdentChar_of_quote h⟩)

theorem finds_declaredConstant : declaredConstant.Finds
    [indent, literal "const", gap] identifier [blanks, literal "="] isWordChar :=
  ⟨fun _ _ h => h, ⟨rfl, rfl, rfl⟩, advances_identifier, readsOnly_identifier⟩

theorem declaredConstant_before :
    (all [indent, literal "const", gap]).EndsIn IdentEdge :=
  EndsIn.after (EndsIn.after (EndsIn.seq endsIn_gap keeps_empty))

theorem declaredConstant_after : (all [blanks, literal "="]).StartsIn NoIdentChar :=
  StartsIn.blanks_seq (StartsIn.seq (startsIn_literal (a := '=') (by decide) (by decide)))

theorem finds_firedHook : firedHook.Finds
    [.wordEdge, keyword ["do_action", "apply_filters"], blanks, literal "(", blanks, quote]
    unquoted [quote] (· != '\n') := by
  refine ⟨fun _ _ h => h, ⟨rfl, rfl, rfl⟩, Advances.seq advances_one, ?_⟩
  exact ReadsOnly.seq (readsOnly_one fun _ ha => (Bool.and_eq_true_iff.mp ha).2)
    (readsOnly_run fun _ ha => (Bool.and_eq_true_iff.mp ha).2)

theorem quoteMark_of_quote {a : Char} (h : (a == '\'' || a == '"') = true) : QuoteMark (some a) :=
  ⟨a, rfl, by rw [isQuote, h, Bool.true_or]⟩

theorem firedHook_before : (all [.wordEdge, keyword ["do_action", "apply_filters"], blanks,
    literal "(", blanks, quote]).EndsIn QuoteMark :=
  EndsIn.after (EndsIn.after (EndsIn.after (EndsIn.after (EndsIn.after
    (EndsIn.seq (endsIn_one fun _ => quoteMark_of_quote) keeps_empty)))))

theorem firedHook_after : (all [quote]).StartsIn QuoteMark :=
  StartsIn.seq (startsIn_one fun _ => quoteMark_of_quote)

end Php

namespace Stylesheet

/-- A character of the name of a property or a variable. -/
def isVariableChar (c : Char) : Bool :=
  isPropertyChar c || c == '$'

theorem isVariableChar_of_isPropertyChar {c : Char} (h : isPropertyChar c = true) :
    isVariableChar c = true := by
  simp [isVariableChar, h]

theorem isNameChar_of_isVariableChar {c : Char} (h : isVariableChar c = true) :
    isNameChar c = true ∨ c = '$' := by
  simp only [isVariableChar, isPropertyChar, Bool.or_eq_true, beq_iff_eq] at h
  rcases h with ((h | h) | h) | h
  · exact Or.inl (by
      simp [isNameChar, isAlphanumeric_of_isAlphanum (toNat_lt_of_isAlphanum h) h])
  · exact Or.inl (by simp [isNameChar, h])
  · exact Or.inl (by simp [isNameChar, h])
  · exact Or.inr h

theorem finds_customProperty : customProperty.Finds []
    (.seq (literal "--") (someOf isPropertyChar)) [blanks, literal ":"] isVariableChar :=
  ⟨fun _ _ h => h, ⟨rfl, rfl, rfl⟩, Advances.after (Advances.seq advances_one),
    ReadsOnly.seq (readsOnly_literal (by decide))
      (ReadsOnly.seq (readsOnly_one fun _ => isVariableChar_of_isPropertyChar)
        (readsOnly_run fun _ => isVariableChar_of_isPropertyChar))⟩

theorem customProperty_head :
    (Pattern.seq (literal "--") (someOf isPropertyChar)).StartsIn fun o => o = some '-' := by
  refine StartsIn.seq ?_
  have hliteral : literal "--" = .seq (.one (· == '-')) (.seq (.one (· == '-')) .empty) := by
    rfl
  rw [hliteral]
  exact StartsIn.seq (startsIn_one fun a ha => by simpa using ha)

theorem finds_scriptVariable : scriptVariable.Finds [indent]
    (all [literal "$", .one fun c => c.isAlpha || c == '_', .run isPropertyChar])
    [blanks, literal ":"] isVariableChar := by
  refine ⟨fun _ _ h => h, ⟨rfl, rfl, rfl⟩, ?_, ?_⟩
  · exact Advances.after (Advances.seq advances_one)
  · refine ReadsOnly.seq (readsOnly_literal (by decide)) (ReadsOnly.seq (readsOnly_one ?_)
      (ReadsOnly.seq (readsOnly_run fun _ => isVariableChar_of_isPropertyChar) readsOnly_empty))
    intro a ha
    rcases Bool.or_eq_true_iff.mp ha with ha | ha
    · simp [isVariableChar, isPropertyChar, Char.isAlphanum, ha]
    · simp [isVariableChar, isPropertyChar, ha]

theorem scriptVariable_head : (all [literal "$", .one fun c => c.isAlpha || c == '_',
    .run isPropertyChar]).StartsIn fun o => o = some '$' := by
  refine StartsIn.seq ?_
  rw [literal_eq (a := '$') (by decide)]
  exact StartsIn.seq (startsIn_one fun a ha => by simpa using ha)

end Stylesheet

end Concordance
