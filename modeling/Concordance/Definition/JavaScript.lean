import Concordance.Definition.Basic

/-!
Definitions in JavaScript: classes with their methods, functions, functions assigned to names, and
the events that are fired.
-/

namespace Concordance.JavaScript

open Text Pattern

/-- A name: a letter, `_` or `$`, then word characters and `$`. -/
def identifier : Pattern :=
  .seq (.one fun c => c.isAlpha || c == '_' || c == '$')
    (.run fun c => isWordChar c || c == '$')

/-- A name that may be private. -/
def memberName : Pattern :=
  .seq (optional (literal "#")) identifier

/-- A quote. -/
def quote : Pattern :=
  .one fun c => c == '\'' || c == '"' || c == '`'

/-- A parenthesised list without parentheses in it. -/
def parameters : Pattern :=
  all [literal "(", .run (· != ')'), literal ")"]

/-- The words that may stand before an exported declaration. -/
def exported : Pattern :=
  optional (all [literal "export", gap, optional (.seq (literal "default") gap)])

/-- The word `async`, or nothing. -/
def async : Pattern :=
  optional (.seq (literal "async") gap)

/-- The head of a class. -/
def classHead : Pattern :=
  all [indent, exported, literal "class", gap, .group 1 identifier]

/-- The head of a method. -/
def methodHead : Pattern :=
  all [indent, .many true (all [keyword ["static", "async", "get", "set"], gap]),
    optional (literal "*"), blanks, .group 1 memberName, blanks, literal "("]

/-- A field of a class that holds an arrow function. -/
def arrowField : Pattern :=
  all [indent, optional (.seq (literal "static") gap), .group 1 memberName, blanks, literal "=",
    blanks, async, .alt parameters identifier, blanks, literal "=>"]

/-- The head of a function. -/
def functionHead : Pattern :=
  all [indent, exported, async, literal "function", blanks, optional (literal "*"), blanks,
    .group 1 identifier, blanks, literal "("]

/-- A function assigned to a name. -/
def assignedFunction : Pattern :=
  all [indent, optional (.seq (literal "export") gap), keyword ["const", "let", "var"], gap,
    .group 1 identifier, blanks, literal "=", blanks, async,
    oneOf [.seq (literal "function") .wordEdge,
      all [parameters, blanks, literal "=>"],
      all [identifier, blanks, literal "=>"]]]

/-- An event that is fired by its name. -/
def firedEvent : Pattern :=
  all [
    .alt
      (all [.wordEdge, literal "new", gap, optional (literal "Custom"), literal "Event"])
      (literal ".trigger"),
    blanks, literal "(", blanks, quote,
    .group 1 (someOf fun c => c != '\'' && c != '"' && c != '`' && c != '\n'), quote]

/-- Words that look like the name of a method and are none. -/
def controlWords : List String :=
  ["if", "for", "while", "switch", "catch", "function", "return", "constructor", "with", "else",
   "do", "typeof", "await", "new"]

/-- A method found: its name and the end of its extent. -/
def foundMethods (s : SourceText) (start stop : Nat) : List FoundFunction :=
  let plain := (s.namesIn methodHead (start + 1) stop).filterMap fun n =>
    if controlWords.contains (String.ofList n.text) then none
    else
      match s.bodyFrom n.matchStop 1 with
      | .missing => none
      | body => some (FoundFunction.mk n (body.declarationEnd n.stop))
  let arrows := (s.namesIn arrowField (start + 1) stop).map fun n =>
    FoundFunction.mk n ((s.bodyFrom n.start 0).declarationEnd n.stop)
  (plain ++ arrows).mergeSort fun a b => a.name.start ≤ b.name.start

/-- The methods of a class whose body lies between two braces. -/
def methods (s : SourceText) (path : String) (owner : FoundName) (start stop : Nat) :
    List Symbol :=
  let outer := (s.depthTracker (start + 1)).outermost (·.name.start) (foundMethods s start stop)
  (outer.filter fun f => !s.inComment f.name.start).map fun f =>
    { s.symbolAt path .method f.name.text f.name.start f.stop with
      container := some (String.ofList owner.text) }

/-- The functions outside classes and other functions, declared and assigned ones. -/
def functions (s : SourceText) (path : String) (bodies : List Span) : List Symbol :=
  let declared := ((s.names functionHead).filter fun n =>
    !bodies.any (·.strictlyCovers n.start) && !s.inComment n.start).map fun n =>
      FoundFunction.mk n ((s.bodyFrom n.matchStop 1).declarationEnd n.stop)
  let outer := (s.depthTracker 0).outermost FoundName.start (s.names assignedFunction)
  let assigned := (outer.filter fun n => !s.inComment n.start).map fun n =>
    FoundFunction.mk n ((s.bodyFrom n.matchStop 0).declarationEnd n.stop)
  (outermostFunctions (declared ++ assigned)).map fun f =>
    s.symbolAt path .function f.name.text f.name.start f.stop

/-- The definitions of a file. -/
def definitions (s : SourceText) (path : String) : Extraction :=
  let classes := readClasses s path true (methods s path) [] (s.names classHead)
  let symbols := classes.symbols ++ functions s path classes.bodies ++
    readEvents s path (s.names firedEvent)
  ⟨inReadingOrder symbols, classes.notices⟩

end Concordance.JavaScript
