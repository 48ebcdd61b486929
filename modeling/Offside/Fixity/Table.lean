-- SUMMARY: The fixities in scope: a stack of scopes, in each of which the first declaration wins.
import Offside.Decl
import Offside.Diagnostic

/-! # Fixity tables

Every block is a scope of its own. Its entries come from all fixity
declarations directly in it, wherever they stand, and hide entries of the
scopes around it. -/

namespace Offside

namespace Fixity

/-- The fixity of an operator and the declaration it comes from. -/
structure Entry where
  operator : String
  fixity : Fixity
  span : Span
  deriving DecidableEq, Repr

/-- The entries of one block, in the order of their declaration. -/
abbrev Scope := List Entry

/-- The entry of an operator in a scope. -/
def Scope.find? (scope : Scope) (operator : String) : Option Entry :=
  List.find? (·.operator = operator) scope

/-- The scopes around a place, innermost first. -/
structure Table where
  scopes : List Scope
  deriving DecidableEq, Repr

/-- Add one operator to a scope. If it has a fixity there already, that one
stays. -/
def Scope.declare (fixity : Fixity) (span : Span) (scope : Scope) (operator : Name) :
    Scope × List Diagnostic :=
  match scope.find? operator.text with
  | some previous =>
    (scope, [(Problem.fixityRedeclared operator.text previous.fixity).at operator.span])
  | none => (scope ++ [⟨operator.text, fixity, span⟩], [])

/-- Add the operators of one declaration. -/
def Scope.declareAll (fixity : Fixity) (span : Span) : Scope → List Name → Scope × List Diagnostic
  | scope, [] => (scope, [])
  | scope, operator :: operators =>
    let (scope₁, ds₁) := scope.declare fixity span operator
    let (scope₂, ds₂) := Scope.declareAll fixity span scope₁ operators
    (scope₂, ds₁ ++ ds₂)

/-- Add the fixity declarations among `decls` to a scope. -/
def Scope.collect {ε : Type} : Scope → List (Decl ε) → Scope × List Diagnostic
  | scope, [] => (scope, [])
  | scope, .fixity span fixity operators :: decls =>
    let (scope₁, ds₁) := scope.declareAll fixity span operators
    let (scope₂, ds₂) := Scope.collect scope₁ decls
    (scope₂, ds₁ ++ ds₂)
  | scope, _ :: decls => scope.collect decls

namespace Table

/-- No scope at all. -/
def empty : Table := ⟨[]⟩

/-- Open the scope of a block, and report operators that are declared again. -/
def enter {ε : Type} (table : Table) (decls : List (Decl ε)) : Table × List Diagnostic :=
  let (scope, ds) := Scope.collect [] decls
  (⟨scope :: table.scopes⟩, ds)

/-- Leave the innermost scope, if there is one. -/
def exit (table : Table) : Table := ⟨table.scopes.tail⟩

/-- The entry of an operator in the innermost scope that has one. -/
def lookup? (table : Table) (operator : String) : Option Entry :=
  table.scopes.findSome? (·.find? operator)

/-- How many scopes are open. -/
def depth (table : Table) : Nat := table.scopes.length

/-- Leaving a scope restores what was there before it was entered. -/
@[simp] theorem exit_enter {ε : Type} (table : Table) (decls : List (Decl ε)) :
    (table.enter decls).1.exit = table := rfl

end Table

end Fixity

end Offside
