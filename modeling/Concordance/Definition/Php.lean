import Concordance.Definition.Basic

/-!
Definitions in PHP: classes with their methods, functions, constants and the hooks that are fired.
-/

namespace Concordance.Php

open Text Pattern

/-- A name: a letter or `_`, then word characters. -/
def identifier : Pattern :=
  .seq (.one fun c => c.isAlpha || c == '_') (.run isWordChar)

/-- A quote. -/
def quote : Pattern :=
  .one fun c => c == '\'' || c == '"'

/-- A run of characters on a line without quotes, at least one. -/
def unquoted : Pattern :=
  someOf fun c => c != '\'' && c != '"' && c != '\n'

/-- The head of a class, an interface, a trait or an enumeration. -/
def classHead : Pattern :=
  all [indent, .many true (all [keyword ["abstract", "final", "readonly"], gap]),
    keyword ["class", "interface", "trait", "enum"], gap, .group 1 identifier]

/-- The name and parenthesis after the word `function`. -/
def functionName : Pattern :=
  all [literal "function", gap, optional (literal "&"), .group 1 identifier, blanks, literal "("]

/-- The head of a method. -/
def methodHead : Pattern :=
  all [indent,
    .many true
      (all [keyword ["public", "protected", "private", "static", "abstract", "final"], gap]),
    functionName]

/-- The head of a function. -/
def functionHead : Pattern :=
  .seq indent functionName

/-- A constant made by a call. -/
def definedConstant : Pattern :=
  all [.wordEdge, literal "define", blanks, literal "(", blanks, quote, .group 1 identifier, quote]

/-- A constant made by a declaration. -/
def declaredConstant : Pattern :=
  all [indent, literal "const", gap, .group 1 identifier, blanks, literal "="]

/-- A hook that is fired by its name. -/
def firedHook : Pattern :=
  all [.wordEdge, keyword ["do_action", "apply_filters"], blanks, literal "(", blanks, quote,
    .group 1 unquoted, quote]

/-- The methods of a class whose body lies between two braces. -/
def methods (s : SourceText) (path : String) (owner : FoundName) (start stop : Nat) :
    List Symbol :=
  let found := s.namesIn methodHead (start + 1) stop
  let outer := (s.depthTracker (start + 1)).outermost FoundName.start found
  (outer.filter fun n => !s.inComment n.start).map fun n =>
    { s.symbolAt path .method n.text n.start ((s.bodyFrom n.matchStop 1).declarationEnd n.stop) with
      container := some (String.ofList owner.text) }

/-- The functions outside classes and other functions. -/
def functions (s : SourceText) (path : String) (bodies : List Span) : List Symbol :=
  let candidates := (s.names functionHead).filter fun n =>
    !bodies.any (·.strictlyCovers n.start) && !s.inComment n.start
  let found := candidates.map fun n =>
    FoundFunction.mk n ((s.bodyFrom n.matchStop 1).declarationEnd n.stop)
  (outermostFunctions found).map fun f =>
    s.symbolAt path .function f.name.text f.name.start f.stop

/-- The constants outside classes, each name once. -/
def constants (s : SourceText) (path : String) (bodies : List Span) : List Symbol :=
  let candidates := (s.names definedConstant ++ s.names declaredConstant).filter fun n =>
    !bodies.any (·.strictlyCovers n.start) && !s.inComment n.start
  (firstPerKey FoundName.text [] candidates).map fun n =>
    s.symbolAt path .variable n.text n.start n.stop

/-- The definitions of a file. -/
def definitions (s : SourceText) (path : String) : Extraction :=
  let classes := readClasses s path false (methods s path) [] (s.names classHead)
  let symbols := classes.symbols ++ functions s path classes.bodies ++
    constants s path classes.bodies ++ readEvents s path (s.names firedHook)
  ⟨inReadingOrder symbols, classes.notices⟩

end Concordance.Php
