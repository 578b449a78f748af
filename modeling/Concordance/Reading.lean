import Concordance.Language
import Concordance.Definition.Php
import Concordance.Definition.JavaScript
import Concordance.Definition.Stylesheet
import Concordance.Reference.Php
import Concordance.Reference.JavaScript
import Concordance.Reference.Stylesheet

/-!
Reading a file in its language: the definitions in it, and the places in it that use a symbol.
-/

namespace Concordance.Language

/-- The text read by the rules of the language. -/
def source (language : Language) (content : String) : SourceText :=
  .ofChars language.lexicalRules content.toList

/-- The definitions of a file. -/
def definitions (language : Language) (content path : String) : Extraction :=
  let s := language.source content
  match language with
  | .php => Php.definitions s path
  | .javascript => JavaScript.definitions s path
  | .css => Stylesheet.definitions s path

/-- The places in a text that may use the symbol. -/
def candidates (language : Language) (s : SourceText) (symbol : Symbol) : List Candidate :=
  match language with
  | .php => Php.candidates s symbol
  | .javascript => JavaScript.candidates s symbol
  | .css => Stylesheet.candidates s symbol

/-- The uses of a symbol in a text. -/
def usagesIn (language : Language) (s : SourceText) (path : String) (symbol : Symbol) :
    List Usage :=
  collectUsages s path symbol (language.candidates s symbol)

/-- The uses of a symbol in a file. -/
def usages (language : Language) (content path : String) (symbol : Symbol) : List Usage :=
  language.usagesIn (language.source content) path symbol

end Concordance.Language
