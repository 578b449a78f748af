import Concordance.Definition.Basic
import Concordance.Selector

/-!
Definitions in stylesheets: selectors that name a class or an id, custom properties and
preprocessor variables.

Selectors come from the text before an opening brace. Rules may be nested; the blocks of most
at-rules hold no rules and are passed over.
-/

namespace Concordance.Stylesheet

open Text Pattern

/-- What a block between braces holds. -/
inductive BlockKind where
  /-- The declarations of a rule, and nested rules. -/
  | rule
  /-- Rules under a condition. -/
  | conditional
  /-- Neither. -/
  | other
deriving Repr, DecidableEq

/-- The at-rules whose block holds rules. -/
def conditionalRules : List String :=
  ["media", "supports", "layer", "container", "document", "scope"]

/-- What the block after the text `head` holds. -/
def blockKind (head : List Char) : BlockKind :=
  match stripFront? ['@'] (trim head) with
  | none => .rule
  | some rest =>
    if conditionalRules.contains (String.ofList (asciiLower (rest.takeWhile isNameChar))) then
      .conditional
    else .other

/-- Where the head of a block starts: after the comments that stand between `start` and `stop`
with nothing but white space before them. -/
def headStart (s : SourceText) (start stop : Nat) : Nat :=
  (s.comments.filter (·.start < stop)).foldl
    (fun start c =>
      if start ≤ c.start && (s.slice start c.start).all isBlank then c.stop else start)
    start

/-- The selectors of the rule whose head is the text from `start` to `stop` and whose block closes
at `close`. A part that names no class or id, or refers to an outer rule, is left out. -/
def selectorsOf (s : SourceText) (path : String) (start stop close : Nat) : List Symbol :=
  (splitSelectors (s.slice start stop)).filterMap fun (offset, part) =>
    let name := collapseBlanks part
    if name.isEmpty || name.contains '&' || (selectorKey? name).isNone then none
    else
      let leading := byteLength part - byteLength (trimStart part)
      some (s.symbolAt path .selector name (start + offset + leading) (close + 1))

/-- The brace at the byte belongs to an interpolation. -/
def isInterpolation (s : SourceText) (offset : Nat) : Bool :=
  s.charAt? (offset - 1) == some '#'

/-- The selectors met in the code. Code before `resume` is passed over, `start` is where the text
before the next block starts, and `blocks` are the blocks that are open, the innermost first. -/
def selectorsFrom (s : SourceText) (path : String) :
    Nat → Nat → List BlockKind → List CodeChar → Extraction
  | _, _, _, [] => ⟨[], []⟩
  | resume, start, blocks, ⟨offset, c⟩ :: rest =>
    if offset < resume then selectorsFrom s path resume start blocks rest
    else if c = '{' then
      if isInterpolation s offset then
        match s.matchingBrace? offset with
        | none => ⟨[], [.interpolationStopped path]⟩
        | some close => selectorsFrom s path (close + 1) start blocks rest
      else
        let head := headStart s start offset
        let kind :=
          if blocks.head? = some .other then .other else blockKind (s.slice head offset)
        if kind = .rule then
          match s.matchingBrace? offset with
          | none => ⟨[], [.rulesStopped path (s.lineOf offset + 1)]⟩
          | some close =>
            let r := selectorsFrom s path resume (offset + 1) (kind :: blocks) rest
            { r with symbols := selectorsOf s path head offset close ++ r.symbols }
        else selectorsFrom s path resume (offset + 1) (kind :: blocks) rest
    else if c = '}' then selectorsFrom s path resume (offset + 1) blocks.tail rest
    else if c = ';' then selectorsFrom s path resume (offset + 1) blocks rest
    else selectorsFrom s path resume start blocks rest

/-- A name character of a custom property or a preprocessor variable. -/
def isPropertyChar (c : Char) : Bool :=
  c.isAlphanum || c == '_' || c == '-'

/-- The declaration of a custom property. -/
def customProperty : Pattern :=
  all [.group 1 (.seq (literal "--") (someOf isPropertyChar)), blanks, literal ":"]

/-- The declaration of a preprocessor variable at the start of a line. -/
def scriptVariable : Pattern :=
  all [indent,
    .group 1 (all [literal "$", .one fun c => c.isAlpha || c == '_',
      .run isPropertyChar]),
    blanks, literal ":"]

/-- A declaration may start here: at the start of a line, of a block, or after another. -/
def startsDeclaration (s : SourceText) (offset : Nat) : Bool :=
  match (trimEnd (s.beforeOnLine offset)).getLast? with
  | none => true
  | some c => c == '{' || c == ';'

/-- The custom properties and the preprocessor variables outside all blocks. -/
def propertiesAndVariables (s : SourceText) (path : String) : List Symbol :=
  let properties := (s.names customProperty).filter fun n =>
    !s.inComment n.start && startsDeclaration s n.start
  let outer := (s.depthTracker 0).outermost FoundName.start (s.names scriptVariable)
  (properties ++ outer.filter fun n => !s.inComment n.start).map fun n =>
    s.symbolAt path .variable n.text n.start n.stop

/-- The definitions of a file, each name once. -/
def definitions (s : SourceText) (path : String) : Extraction :=
  let selectors := selectorsFrom s path 0 0 [] (s.codeFrom 0)
  let symbols := firstPerKey Symbol.name [] (selectors.symbols ++ propertiesAndVariables s path)
  ⟨inReadingOrder symbols, selectors.notices⟩

end Concordance.Stylesheet
