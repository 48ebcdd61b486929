-- SUMMARY: A table that gives each distinct text one symbol.

/-! # Symbol tables

A table holds distinct texts in the order in which they were first seen. The
symbol of a text is its place in that order, so two texts have the same symbol
exactly when they are equal, and a symbol keeps its meaning as the table grows. -/

namespace Offside

/-- What stands for a text. -/
structure Symbol where
  index : Nat
  deriving DecidableEq, Repr

/-- The texts that have a symbol, in the order of their symbols. -/
structure SymbolTable where
  texts : List String
  deriving DecidableEq, Repr

namespace SymbolTable

/-- A table without texts. -/
def empty : SymbolTable := ⟨[]⟩

/-- The number of distinct texts. -/
def size (t : SymbolTable) : Nat := t.texts.length

/-- The symbol of a text that is in the table. -/
def lookup? (t : SymbolTable) (text : String) : Option Symbol :=
  (t.texts.idxOf? text).map Symbol.mk

/-- The text that a symbol stands for. -/
def resolve? (t : SymbolTable) (s : Symbol) : Option String := t.texts[s.index]?

/-- The symbol of a text, which is added if it is not in the table. -/
def intern (t : SymbolTable) (text : String) : Symbol × SymbolTable :=
  match t.lookup? text with
  | some s => (s, t)
  | none => (⟨t.size⟩, ⟨t.texts ++ [text]⟩)

/-- The symbols of several texts, taken one after another. -/
def internAll (t : SymbolTable) : List String → List Symbol × SymbolTable
  | [] => ([], t)
  | text :: texts =>
    let (s, t₁) := t.intern text
    let (ss, t₂) := t₁.internAll texts
    (s :: ss, t₂)

end SymbolTable

end Offside
