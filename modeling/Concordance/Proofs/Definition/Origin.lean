import Concordance.Proofs.Definition.Standing
import Concordance.Reading

/-!
What all definitions of a file have in common, whatever their language and kind.

Main statement: `Language.origin_of_mem_definitions`. A definition names the file it was read from,
has no uses yet, stands at a place of the text, and its id is the digest of these.
-/

namespace Concordance

open Text

variable {s : SourceText} {path : String} {symbol : Symbol}

/-- The symbol is a definition of the text, read from the file at the path. -/
structure Symbol.Origin (symbol : Symbol) (s : SourceText) (path : String) : Prop where
  filePath : symbol.filePath = path
  usages : symbol.usages = []
  id : symbol.id = Symbol.idOf path symbol.name symbol.position
  position : ∃ offset, symbol.position = s.positionAt offset

theorem origin_symbolAt (s : SourceText) (path : String) (kind : SymbolKind) (name : List Char)
    (start stop : Nat) : (s.symbolAt path kind name start stop).Origin s path :=
  ⟨rfl, rfl, rfl, start, rfl⟩

theorem origin_of_mem_readClasses {nested : Bool} {members : FoundName → Nat → Nat → List Symbol}
    {bodies : List Span} {names : List FoundName}
    (hmembers : ∀ n start stop, ∀ d ∈ members n start stop, d.Origin s path)
    (h : symbol ∈ (readClasses s path nested members bodies names).symbols) :
    symbol.Origin s path := by
  rcases exists_of_mem_readClasses h with ⟨n, -, stop, rfl⟩ | ⟨n, -, start, stop, -, hmember⟩
  · exact origin_symbolAt s path .type n.text n.start stop
  · exact hmembers n start stop symbol hmember

theorem origin_of_mem_readEvents {names : List FoundName} (h : symbol ∈ readEvents s path names) :
    symbol.Origin s path := by
  obtain ⟨n, -, rfl⟩ := List.mem_map.mp h
  exact ⟨rfl, rfl, rfl, n.start, rfl⟩

theorem Php.origin_of_mem_definitions (h : symbol ∈ (Php.definitions s path).symbols) :
    symbol.Origin s path := by
  rcases List.mem_append.mp (List.mem_mergeSort.mp h) with h | h
  · rcases List.mem_append.mp h with h | h
    · rcases List.mem_append.mp h with h | h
      · refine origin_of_mem_readClasses (fun n start stop d hd => ?_) h
        obtain ⟨m, -, rfl⟩ := List.mem_map.mp hd
        exact ⟨rfl, rfl, rfl, m.start, rfl⟩
      · obtain ⟨f, -, rfl⟩ := List.mem_map.mp h
        exact origin_symbolAt ..
    · obtain ⟨n, -, rfl⟩ := List.mem_map.mp h
      exact origin_symbolAt ..
  · exact origin_of_mem_readEvents h

theorem JavaScript.origin_of_mem_definitions
    (h : symbol ∈ (JavaScript.definitions s path).symbols) : symbol.Origin s path := by
  rcases List.mem_append.mp (List.mem_mergeSort.mp h) with h | h
  · rcases List.mem_append.mp h with h | h
    · refine origin_of_mem_readClasses (fun n start stop d hd => ?_) h
      obtain ⟨f, -, rfl⟩ := List.mem_map.mp hd
      exact ⟨rfl, rfl, rfl, f.name.start, rfl⟩
    · obtain ⟨f, -, rfl⟩ := List.mem_map.mp h
      exact origin_symbolAt ..
  · exact origin_of_mem_readEvents h

theorem Stylesheet.origin_of_mem_definitions
    (h : symbol ∈ (Stylesheet.definitions s path).symbols) : symbol.Origin s path := by
  have hmem := mem_of_mem_firstPerKey _ (List.mem_mergeSort.mp h)
  rcases List.mem_append.mp hmem with h | h
  · obtain ⟨start, stop, close, -, -, h⟩ :=
      Stylesheet.exists_of_mem_selectorsFrom (P := fun _ => True) trivial (fun _ _ _ => trivial) h
    obtain ⟨⟨offset, part⟩, -, hsymbol⟩ := List.mem_filterMap.mp h
    dsimp only at hsymbol
    split at hsymbol
    · cases hsymbol
    · obtain rfl := Option.some.inj hsymbol
      exact origin_symbolAt ..
  · obtain ⟨n, -, rfl⟩ := List.mem_map.mp h
    exact origin_symbolAt ..

theorem Language.origin_of_mem_definitions {language : Language} {content : String}
    (h : symbol ∈ (language.definitions content path).symbols) :
    symbol.Origin (language.source content) path := by
  cases language with
  | php => exact Php.origin_of_mem_definitions h
  | javascript => exact JavaScript.origin_of_mem_definitions h
  | css => exact Stylesheet.origin_of_mem_definitions h

end Concordance
