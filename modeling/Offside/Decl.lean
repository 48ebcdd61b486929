-- SUMMARY: Declarations over any type of expressions, and their parts.
import Offside.Fixity
import Offside.Name

/-! # Declarations

The shapes of declarations do not depend on how far their expressions have
been analysed, so they are given over a type `ε` of expressions. -/

namespace Offside

/-- Names with their type in brackets: `(x y : A)`, or `{x y : A}` if implicit. -/
structure Param (ε : Type) where
  span : Span
  isImplicit : Bool
  names : List Name
  type : ε
  deriving DecidableEq, Repr

/-- What a lambda or a quantifier binds. -/
inductive Binding (ε : Type) where
  | name (name : Name)
  | typed (param : Param ε)
  deriving DecidableEq, Repr

/-- The span of a binding. -/
def Binding.span {ε : Type} : Binding ε → Span
  | .name n => n.span
  | .typed p => p.span

/-- A field of a record value: `x = e`. -/
structure Assignment (ε : Type) where
  span : Span
  name : Name
  value : ε
  deriving DecidableEq, Repr

/-- Names with their common type: `f g : A`. -/
structure Signature (ε : Type) where
  span : Span
  names : List Name
  type : ε
  deriving DecidableEq, Repr

/-- How the declaration of a type begins: `Vec (A : Type) : Nat -> Type`. -/
structure Header (ε : Type) where
  name : Name
  params : List (Param ε)
  type : Option ε
  deriving DecidableEq, Repr

/-- How a module is brought into scope. -/
inductive ImportKind where
  | importOnly
  | openOnly
  | openImport
  deriving DecidableEq, Repr

/-- The keywords of an import. -/
def ImportKind.text : ImportKind → String
  | importOnly => "import"
  | openOnly => "open"
  | openImport => "open import"

/-- A declaration. -/
inductive Decl (ε : Type) where
  /-- A data type with a block of constructors. -/
  | dataType (span : Span) (header : Header ε) (constructors : List (Signature ε))
  /-- A data type without such a block. -/
  | emptyData (span : Span) (header : Header ε)
  /-- A record type: its constructor, its fields, and other declarations. -/
  | recordType (span : Span) (header : Header ε) (builder : Option Name)
      (fields : List (Signature ε)) (decls : List (Decl ε))
  | moduleBlock (span : Span) (name : QualifiedName) (params : List (Param ε))
      (decls : List (Decl ε))
  | importModule (span : Span) (kind : ImportKind) (name : QualifiedName)
  /-- The type of some functions. -/
  | ascription (signature : Signature ε)
  /-- One defining clause of a function. Its left-hand side is one expression
  at first. Once operators are resolved it is the list of the defined name and
  its patterns, and `isOperator` says that the name stands between two. -/
  | clause (span : Span) (patterns : List ε) (isOperator : Bool) (withPatterns : List ε)
      (withExpr : Option ε) (rhs : Option ε) (locals : List (Decl ε))
  | fixity (span : Span) (fixity : Fixity) (operators : List Name)

/-- The span of a declaration. -/
def Decl.span {ε : Type} : Decl ε → Span
  | dataType span .. | emptyData span .. | recordType span .. | moduleBlock span ..
  | importModule span .. | clause span .. | fixity span .. => span
  | ascription signature => signature.span

end Offside
