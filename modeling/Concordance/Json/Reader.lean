import Concordance.Json.Basic
import Concordance.Json.Scan

/-!
Readers for JSON values of a known form: flags, counts, texts, choices, lists and records.

A reader stops at the first fault in the order of the text, be it one of spelling or of form. A
record may be written with its fields by name, where unknown names are passed over, or as the list of
its fields in order.
-/

namespace Concordance.Json

open Text

/-- The fault of the value at the front of the text, which is not what was expected. -/
def mismatch (expected : String) (rest : List Char) : Failure :=
  let wrong (found : Found) (after : List Char) : Failure :=
    failHere (.wrongKind found expected) after
  let named (found : Found) : Except Failure (List Char) → Failure
    | .ok after => wrong found after
    | .error e => e
  let numbered : Except Failure (Numeral × List Char) → Failure
    | .ok (n, after) => wrong (.number n) after
    | .error e => e
  match rest with
  | [] => failNext .expectedValue []
  | c :: cs =>
    if c = 'n' then named .null (word "ull".toList cs)
    else if c = 't' then named (.bool true) (word "rue".toList cs)
    else if c = 'f' then named (.bool false) (word "alse".toList cs)
    else if c = '-' then numbered (numberTail true cs)
    else if c.isDigit then numbered (numberTail false rest)
    else if c = '"' then
      match stringTail cs with
      | .ok (s, after) => wrong (.text s) after
      | .error e => e
    else if c = '[' then wrong .list rest
    else if c = '{' then wrong .record rest
    else failNext .expectedValue rest

/-- A value starts where white space ends; the text must not end there. -/
def atValue {α : Type} (read : Char → List Char → Except Failure (α × List Char)) : Reader α :=
  fun rest =>
    match skipSpace rest with
    | [] => .error (failNext .valueMissing [])
    | c :: cs => read c cs

/-- `true` or `false`. -/
def readBool : Reader Bool :=
  atValue fun c cs =>
    if c = 't' then (word "rue".toList cs).map (true, ·)
    else if c = 'f' then (word "alse".toList cs).map (false, ·)
    else .error (mismatch "a boolean" (c :: cs))

/-- The count that a numeral writes, if it is one. -/
def countOf (expected : String) (rest : List Char) : Numeral → Except Failure (Nat × List Char)
  | .natural n => .ok (n, rest)
  | .negative n => .error (failHere (.wrongValue (.number (.negative n)) expected) rest)
  | n => .error (failHere (.wrongKind (.number n) expected) rest)

/-- A number from zero to the largest 64-bit number. -/
def readCount (expected : String) : Reader Nat :=
  atValue fun c cs =>
    if c = '-' then (numberTail true cs).bind fun (n, rest) => countOf expected rest n
    else if c.isDigit then
      (numberTail false (c :: cs)).bind fun (n, rest) => countOf expected rest n
    else .error (mismatch expected (c :: cs))

/-- A text. -/
def readText : Reader String :=
  atValue fun c cs =>
    if c = '"' then (stringTail cs).map fun (s, rest) => (String.ofList s, rest)
    else .error (mismatch "a string" (c :: cs))

/-- `null`. -/
def readNull : Reader Unit :=
  atValue fun c cs =>
    if c = 'n' then (word "ull".toList cs).map ((), ·) else .error (mismatch "unit" (c :: cs))

/-- Nothing for `null`, else a value. -/
def readOptional {α : Type} (read : Reader α) : Reader (Option α) := fun rest =>
  match skipSpace rest with
  | 'n' :: cs => (word "ull".toList cs).map (none, ·)
  | rest => (read rest).map fun (a, rest) => (some a, rest)

/-- The colon behind a name. -/
def colon (rest : List Char) : Except Failure (List Char) :=
  match skipSpace rest with
  | [] => .error (failNext .recordNotClosed [])
  | ':' :: cs => .ok cs
  | rest => .error (failNext .expectedColon rest)

/-- The name of one of the choices, behind its opening quote. -/
def choiceTail {α : Type} (choices : List (String × α)) : Reader α := fun rest =>
  (stringTail rest).bind fun (name, rest) =>
    match choices.lookup (String.ofList name) with
    | some a => .ok (a, rest)
    | none => .error (failHere (.unknownChoice name (choices.map Prod.fst)) rest)

/-- The name of one of the choices inside a record. -/
def readChoiceName {α : Type} (choices : List (String × α)) : Reader α :=
  atValue fun c cs =>
    if c = '"' then choiceTail choices cs
    else .error (failNext (if c = '}' then .expectedValue else .nameNotText) (c :: cs))

/-- One of the choices: its name, or a record that gives the name the value `null`. -/
def readChoice {α : Type} (choices : List (String × α)) : Reader α :=
  atValue fun c cs =>
    if c = '"' then choiceTail choices cs
    else if c = '{' then
      (readChoiceName choices cs).bind fun (a, rest) =>
      (colon rest).bind fun rest =>
      (readNull rest).bind fun (_, rest) =>
        match skipSpace rest with
        | [] => .error (failHere .recordNotClosed [])
        | '}' :: cs => .ok (a, cs)
        | rest => .error (failHere .expectedValue rest)
    else .error (failNext .expectedValue (c :: cs))

/-- Where the next item of a list starts: `none` at its end, which is not passed. -/
def nextItem (first : Bool) (rest : List Char) : Except Failure (Option (List Char)) :=
  match skipSpace rest with
  | [] => .error (failNext .listNotClosed [])
  | ']' :: _ => .ok none
  | c :: cs =>
    if first then .ok (some (c :: cs))
    else if c = ',' then
      match skipSpace cs with
      | [] => .error (failNext .valueMissing [])
      | ']' :: cs => .error (failNext .trailingComma (']' :: cs))
      | cs => .ok (some cs)
    else .error (failNext .expectedListEnd (c :: cs))

/-- The end of a list. -/
def listEnd (rest : List Char) : Except Failure (List Char) :=
  match skipSpace rest with
  | [] => .error (failNext .listNotClosed [])
  | ']' :: cs => .ok cs
  | ',' :: cs =>
    match skipSpace cs with
    | ']' :: cs => .error (failNext .trailingComma (']' :: cs))
    | cs => .error (failNext .trailingCharacters cs)
  | rest => .error (failNext .trailingCharacters rest)

/-- The items of a list behind its opening bracket. The count is an upper bound on their number. -/
def readItems {α : Type} (read : Reader α) : Nat → Bool → Reader (List α)
  | 0, _, rest => .error (failHere .listNotClosed rest)
  | fuel + 1, first, rest =>
    match nextItem first rest with
    | .error e => .error e
    | .ok none => .ok ([], skipSpace rest)
    | .ok (some rest) =>
      match read rest with
      | .error e => .error e
      | .ok (a, rest) =>
        match readItems read fuel false rest with
        | .error e => .error e
        | .ok (as, rest) => .ok (a :: as, rest)

/-- A list. -/
def readList {α : Type} (read : Reader α) : Reader (List α) :=
  atValue fun c cs =>
    if c = '[' then
      (readItems read (cs.length + 1) true cs).bind fun (as, rest) =>
        (listEnd rest).map fun rest => (as, rest)
    else .error (mismatch "a sequence" (c :: cs))

/-- A bracket that is open. -/
inductive Bracket where
  | list
  | record
deriving Repr, DecidableEq

namespace Bracket

/-- The character that closes the bracket. -/
def closing : Bracket → Char
  | .list => ']'
  | .record => '}'

/-- The text ended inside the bracket. -/
def notClosed : Bracket → Fault
  | .list => .listNotClosed
  | .record => .recordNotClosed

/-- Neither a comma nor the closing character follows a value inside the bracket. -/
def expectedEnd : Bracket → Fault
  | .list => .expectedListEnd
  | .record => .expectedRecordEnd

end Bracket

/-- The name and colon in front of a value in a record that nobody reads. -/
def skipName (rest : List Char) : Except Failure (List Char) :=
  match skipSpace rest with
  | [] => .error (failNext .recordNotClosed [])
  | '"' :: cs => (skipString cs.length cs).bind colon
  | rest => .error (failNext .nameNotText rest)

/-- What stands in front of a value inside a bracket: its name, if that is a record. -/
def skipLead (bracket : Bracket) (rest : List Char) : Except Failure (List Char) :=
  match bracket with
  | .list => .ok rest
  | .record => skipName rest

/-- What comes next when a value is skipped. -/
inductive SkipStep where
  /-- A value starts. -/
  | value
  /-- A bracket was opened. -/
  | opened
  /-- A value ended. -/
  | ended
deriving Repr, DecidableEq

/-- A value that is no list or record and that nobody reads. -/
def skipScalar : List Char → Except Failure (List Char)
  | [] => .error (failNext .valueMissing [])
  | c :: cs =>
    if c = 'n' then word "ull".toList cs
    else if c = 't' then word "rue".toList cs
    else if c = 'f' then word "alse".toList cs
    else if c = '-' then skipNumber cs
    else if c.isDigit then skipNumber (c :: cs)
    else if c = '"' then skipString cs.length cs
    else .error (failNext .expectedValue (c :: cs))

/-- What is left after a value that nobody reads, inside the open brackets. The count is an upper
bound on the steps. -/
def skipSteps : Nat → SkipStep → List Bracket → List Char → Except Failure (List Char)
  | 0, _, _, rest => .error (failHere .valueMissing rest)
  | fuel + 1, .value, outer, rest =>
    match skipSpace rest with
    | '[' :: cs => skipSteps fuel .opened (.list :: outer) cs
    | '{' :: cs => skipSteps fuel .opened (.record :: outer) cs
    | rest => (skipScalar rest).bind (skipSteps fuel .ended outer)
  | _ + 1, .ended, [], rest => .ok rest
  | _ + 1, .opened, [], rest => .ok rest
  | fuel + 1, .opened, bracket :: outer, rest =>
    match skipSpace rest with
    | [] => .error (failNext bracket.notClosed [])
    | c :: cs =>
      if c = bracket.closing then skipSteps fuel .ended outer cs
      else (skipLead bracket (c :: cs)).bind (skipSteps fuel .value (bracket :: outer))
  | fuel + 1, .ended, bracket :: outer, rest =>
    match skipSpace rest with
    | [] => .error (failNext bracket.notClosed [])
    | c :: cs =>
      if c = ',' then (skipLead bracket cs).bind (skipSteps fuel .value (bracket :: outer))
      else if c = bracket.closing then skipSteps fuel .ended outer cs
      else .error (failNext bracket.expectedEnd (c :: cs))

/-- What is left after a value that nobody reads. -/
def skipValue (rest : List Char) : Except Failure (List Char) :=
  skipSteps (2 * rest.length + 2) .value [] rest

/-- A field of a record `σ`: its name, how its value is put into the record, and whether it has to
be there. -/
structure Field (σ : Type) where
  name : String
  needed : Bool
  read : σ → Reader σ

/-- The field with the name, whose value is read and put into the record. -/
def Field.of {σ α : Type} (name : String) (needed : Bool) (read : Reader α) (put : σ → α → σ) :
    Field σ where
  name := name
  needed := needed
  read := fun s rest => (read rest).map fun (a, rest) => (put s a, rest)

/-- The name of the next field of a record: `none` at its end, which is not passed. -/
def nextName (first : Bool) (rest : List Char) :
    Except Failure (Option (List Char × List Char)) :=
  let name (cs : List Char) := (stringTail cs).map some
  match skipSpace rest with
  | [] => .error (failNext .recordNotClosed [])
  | '}' :: _ => .ok none
  | c :: cs =>
    if first then
      if c = '"' then name cs else .error (failNext .nameNotText (c :: cs))
    else if c = ',' then
      match skipSpace cs with
      | [] => .error (failNext .valueMissing [])
      | '"' :: cs => name cs
      | '}' :: cs => .error (failNext .trailingComma ('}' :: cs))
      | cs => .error (failNext .nameNotText cs)
    else .error (failNext .expectedRecordEnd (c :: cs))

/-- What is left behind the end of a record, if that comes next. -/
def passRecordEnd (rest : List Char) : List Char :=
  match skipSpace rest with
  | '}' :: cs => cs
  | rest => rest

/-- What is left behind the end of a list, if that comes next. -/
def passListEnd (rest : List Char) : List Char :=
  match skipSpace rest with
  | ']' :: cs => cs
  | rest => rest

/-- The fields of a record by name, behind its opening brace, put into `s`; `seen` are the names so
far. The count is an upper bound on their number. -/
def readNamed {σ : Type} (fields : List (Field σ)) :
    Nat → Bool → List String → σ → Reader (σ × List String)
  | 0, _, _, _, rest => .error (failHere .recordNotClosed rest)
  | fuel + 1, first, seen, s, rest =>
    match nextName first rest with
    | .error e => .error e
    | .ok none => .ok ((s, seen), skipSpace rest)
    | .ok (some (name, rest)) =>
      let name := String.ofList name
      match fields.find? (·.name == name) with
      | none =>
        match (colon rest).bind skipValue with
        | .error e => .error e
        | .ok rest => readNamed fields fuel false seen s rest
      | some field =>
        if seen.contains name then .error (failHere (.repeatedField name) (passRecordEnd rest))
        else
          match (colon rest).bind (field.read s) with
          | .error e => .error e
          | .ok (s, rest) => readNamed fields fuel false (name :: seen) s rest

/-- The fields of a record in order, behind the opening bracket of a list, put into `s`; `done`
counts those before. -/
def readInOrder {σ : Type} (expected : String) : Nat → List (Field σ) → σ → Reader σ
  | _, [], s, rest => .ok (s, rest)
  | done, field :: fields, s, rest =>
    match nextItem (done == 0) rest with
    | .error e => .error e
    | .ok none =>
      if field.needed then .error (failHere (.tooShort done expected) (passListEnd rest))
      else readInOrder expected (done + 1) fields s rest
    | .ok (some rest) =>
      match field.read s rest with
      | .error e => .error e
      | .ok (s, rest) => readInOrder expected (done + 1) fields s rest

/-- A record, by the fields that fill in `blank`. -/
def readRecord {σ : Type} (name : String) (fields : List (Field σ)) (blank : σ) : Reader σ :=
  let expected := "struct " ++ name
  atValue fun c cs =>
    if c = '[' then
      let full := expected ++ " with " ++ toString fields.length ++ " elements"
      (readInOrder full 0 fields blank cs).bind fun (s, rest) =>
        (listEnd rest).map fun rest => (s, rest)
    else if c = '{' then
      (readNamed fields (cs.length + 1) true [] blank cs).bind fun ((s, seen), rest) =>
        match fields.find? fun f => f.needed && !seen.contains f.name with
        | some f => .error (failHere (.missingField f.name) (passRecordEnd rest))
        | none => .ok (s, passRecordEnd rest)
    else .error (mismatch expected (c :: cs))

/-- The value of a whole text; nothing but white space may follow it. -/
def parse {α : Type} (read : Reader α) (text : List Char) : Except String α :=
  match read text with
  | .error e => .error (e.message text)
  | .ok (a, rest) =>
    match skipSpace rest with
    | [] => .ok a
    | rest => .error ((failNext .trailingCharacters rest).message text)

end Concordance.Json
