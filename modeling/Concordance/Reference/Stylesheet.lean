import Concordance.Reference.Basic

/-!
Uses in stylesheets: selectors that are extended and variables that are read.
-/

namespace Concordance.Stylesheet

open Text Pattern

/-- A rule that extends selectors. -/
def extension : Pattern :=
  all [literal "@extend", oneOrMore (.one isBlank),
    .group 1 (someOf fun c => c != ';' && c != '{' && c != '}' && c != '\n')]

/-- The places that extend a selector with the key. -/
def extensions (s : SourceText) (key : SelectorKey) : List Candidate :=
  (extension.searchAll 0 s.chars).flatMap fun m =>
    match m.group? 1 with
    | none => []
    | some g =>
      (tokenOffsets key.token (s.slice g.start g.stop)).map fun i =>
        .sure (g.start + i) (g.start + i + byteLength key.token) .extend

/-- The places that may use the symbol. A variable with a colon after it is declared, not used. -/
def candidates (s : SourceText) (symbol : Symbol) : List Candidate :=
  let name := symbol.name.toList
  let size := byteLength name
  match symbol.kind with
  | .selector =>
    match selectorKey? name with
    | some key => extensions s key
    | none => []
  | .variable =>
    (tokenOffsets name s.chars).map fun start =>
      ⟨start, start + size, fun _ =>
        if (trimStart (s.afterOnLine (start + size))).head? == some ':' then none
        else some .reference⟩
  | _ => []

end Concordance.Stylesheet
