import Concordance.Path
import Concordance.Symbol
import Concordance.Source.Comment

/-!
The languages that are read, the file extensions they are known by, and which definitions a
language can refer to.
-/

namespace Concordance

open Text

/-- A language that is read. -/
inductive Language where
  | php
  | javascript
  | css
deriving Repr, DecidableEq, Inhabited

namespace Language

/-- The name of a language. -/
def name : Language → String
  | .php => "php"
  | .javascript => "javascript"
  | .css => "css"

/-- Every language. -/
def every : List Language :=
  [.php, .javascript, .css]

/-- The language with the name. -/
def ofName? (name : String) : Option Language :=
  every.find? (·.name == name)

/-- How comments and string literals of the language are written. -/
def lexicalRules : Language → LexicalRules
  | .php => ⟨["//".toList, "#".toList], ['\'', '"']⟩
  | .javascript => ⟨["//".toList], ['\'', '"', '`']⟩
  | .css => ⟨[], ['\'', '"']⟩

/-- The file extensions known at the start, each with its language. -/
def defaultExtensions : List (String × Language) :=
  [("php", .php), ("phtml", .php), ("inc", .php), ("js", .javascript), ("mjs", .javascript),
   ("cjs", .javascript), ("jsx", .javascript), ("css", .css), ("scss", .css), ("less", .css)]

/-- A file in `user` can refer to a definition of the kind in a file of language `origin`. A
selector is named by every language, a stylesheet variable by stylesheets and scripts. -/
def accepts (user origin : Language) (kind : SymbolKind) : Bool :=
  match kind, origin with
  | .selector, _ => true
  | .variable, .css => user == .css || user == .javascript
  | .file, _ => false
  | _, _ => origin == user

end Language

/-- A file extension without leading dots, in small letters. -/
def normalizeExtension (extension : String) : String :=
  String.ofList (asciiLower (extension.toList.dropWhile (· == '.')))

/-- The extension of a path, normalized. -/
def extensionOf? (path : String) : Option String :=
  (Path.ofString path).extension?.map fun e => normalizeExtension (String.ofList e)

/-- The language of a file extension at the start. -/
def Language.ofExtension? (extension : String) : Option Language :=
  Language.defaultExtensions.lookup (normalizeExtension extension)

/-- The language of a file at the start, by its extension. -/
def Language.ofPath? (path : String) : Option Language :=
  (extensionOf? path).bind Language.ofExtension?

end Concordance
