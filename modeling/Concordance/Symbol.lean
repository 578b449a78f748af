import Concordance.Position
import Concordance.Digest

/-!
Definitions and the places that use them.

A symbol is a named definition with the uses found for it. Its id is the start of a digest over
its file, its name and its place, so one definition site has one id.
-/

namespace Concordance

/-- What a definition defines. -/
inductive SymbolKind where
  /-- A class, an interface, a trait or an enumeration. -/
  | type
  | function
  | method
  | selector
  | variable
  | event
  /-- A whole file, which stands in graphs only. -/
  | file
deriving Repr, DecidableEq, Inhabited

namespace SymbolKind

/-- The name of a kind. -/
def name : SymbolKind → String
  | .type => "class"
  | .function => "function"
  | .method => "method"
  | .selector => "selector"
  | .variable => "variable"
  | .event => "event"
  | .file => "file"

/-- The name of a kind as it starts a description. -/
def label : SymbolKind → String
  | .type => "Class"
  | .function => "Function"
  | .method => "Method"
  | .selector => "Selector"
  | .variable => "Variable"
  | .event => "Event"
  | .file => "File"

/-- Every kind. -/
def every : List SymbolKind :=
  [.type, .function, .method, .selector, .variable, .event, .file]

/-- The kind with the name. -/
def ofName? (name : String) : Option SymbolKind :=
  every.find? (·.name == name)

theorem ofName?_name (kind : SymbolKind) : ofName? kind.name = some kind := by
  cases kind <;> decide

end SymbolKind

/-- How a place uses a definition. -/
inductive UsageKind where
  | call
  | reference
  | extend
  | implement
  | imported
  | inclusion
deriving Repr, DecidableEq, Inhabited

namespace UsageKind

/-- The name of a kind of use. -/
def name : UsageKind → String
  | .call => "call"
  | .reference => "reference"
  | .extend => "extend"
  | .implement => "implement"
  | .imported => "import"
  | .inclusion => "inclusion"

/-- Every kind of use. -/
def every : List UsageKind :=
  [.call, .reference, .extend, .implement, .imported, .inclusion]

/-- The kind of use with the name. -/
def ofName? (name : String) : Option UsageKind :=
  every.find? (·.name == name)

theorem ofName?_name (kind : UsageKind) : ofName? kind.name = some kind := by
  cases kind <;> decide

end UsageKind

/-- A place that uses a definition. -/
structure Usage where
  filePath : String
  position : Position
  range : Range
  /-- The line of the place, trimmed. -/
  context : String
  kind : UsageKind
deriving Repr, DecidableEq, Inhabited

/-- A named definition and the places that use it. -/
structure Symbol where
  id : String
  name : String
  kind : SymbolKind
  filePath : String
  position : Position
  range : Range
  /-- The class that a method belongs to. -/
  container : Option String := none
  /-- The text of the doc comment above the definition. -/
  documentation : Option String := none
  usages : List Usage := []
deriving Repr, DecidableEq, Inhabited

namespace Symbol

/-- The bytes an id is the digest of: file, name and place with colons between them, the two
numbers of the place as eight bytes each. -/
def idBytes (filePath name : String) (position : Position) : List UInt8 :=
  let colon := Digest.utf8 [':']
  Digest.utf8 filePath.toList ++ colon ++ Digest.utf8 name.toList ++ colon ++
    Digest.bigEndian 8 position.line ++ colon ++ Digest.bigEndian 8 position.character

/-- The id of a definition site: the first eight bytes of the digest, in hexadecimal. -/
def idOf (filePath name : String) (position : Position) : String :=
  String.ofList (Digest.hex ((Digest.sha256 (idBytes filePath name position)).take 8))

/-- A definition without uses, with the id of its site. -/
def define (name : String) (kind : SymbolKind) (filePath : String) (position : Position)
    (range : Range) : Symbol where
  id := idOf filePath name position
  name := name
  kind := kind
  filePath := filePath
  position := position
  range := range

/-- The name with the container before it. -/
def qualifiedName (s : Symbol) : String :=
  match s.container with
  | some container => container ++ "::" ++ s.name
  | none => s.name

/-- The line is the one that defines the symbol. -/
def isDefinitionSite (s : Symbol) (filePath : String) (line : Nat) : Bool :=
  s.filePath == filePath && s.position.line == line

end Symbol

/-- The order by file, then by place. -/
def siteUpTo (fileA : String) (a : Position) (fileB : String) (b : Position) : Bool :=
  decide (fileA < fileB) || (fileA == fileB && a.upTo b)

/-- The order of uses by file, then by place. -/
def Usage.upTo (a b : Usage) : Bool :=
  siteUpTo a.filePath a.position b.filePath b.position

/-- The order of definitions by file, then by place. -/
def Symbol.upTo (a b : Symbol) : Bool :=
  siteUpTo a.filePath a.position b.filePath b.position

end Concordance
