-- SUMMARY: Expressions with operators resolved.
import Offside.Decl

/-! # Expressions -/

namespace Offside

/-- The expressions without parts. -/
inductive Leaf where
  | name (name : QualifiedName)
  | hole (span : Span)
  | unit (span : Span)
  /-- The type of types. -/
  | type (span : Span)
  | integer (span : Span) (value : UInt64)
  deriving DecidableEq, Repr

namespace Leaf

/-- The span of a leaf. -/
def span : Leaf → Span
  | name q => q.span
  | hole span | type span | unit span | integer span _ => span

/-- The written form of a leaf. -/
def text : Leaf → String
  | name q => q.text
  | hole _ => "_"
  | unit _ => "()"
  | type _ => "Type"
  | integer _ value => toString value.toNat

/-- A leaf in a sentence. -/
def phrase : Leaf → String
  | name _ => "a name"
  | hole _ => "a hole"
  | unit _ => "the unit value"
  | type _ => "`Type`"
  | integer _ _ => "an integer literal"

end Leaf

/-- The two forms that bind names in an expression. -/
inductive Binder where
  | lambda
  | forallType
  deriving DecidableEq, Repr

/-- An expression. -/
inductive Expr where
  | leaf (leaf : Leaf)
  | paren (span : Span) (inner : Expr)
  /-- A record value: `record P { x = a ; y = b }`. -/
  | record (span : Span) (builder : Option QualifiedName) (fields : List (Assignment Expr))
  /-- The type of functions: `A -> B`. -/
  | arrow (span : Span) (domain codomain : Expr)
  /-- The type of functions whose result type may name the argument:
  `(x : A) {y : B} -> C`. -/
  | pi (span : Span) (params : List (Param Expr)) (codomain : Expr)
  | bind (span : Span) (binder : Binder) (bindings : List (Binding Expr)) (body : Expr)
  | letIn (span : Span) (decls : List (Decl Expr)) (body : Expr)
  | app (span : Span) (fn arg : Expr)
  /-- The use of a declared operator. -/
  | operation (span : Span) (operator : Name) (left right : Expr)

namespace Expr

/-- The span of an expression. -/
def span : Expr → Span
  | leaf l => l.span
  | paren span .. | record span .. | arrow span .. | pi span .. | bind span .. | letIn span ..
  | app span .. | operation span .. => span

/-- An expression in a sentence. -/
def phrase : Expr → String
  | leaf l => l.phrase
  | paren .. => "a parenthesized expression"
  | record .. => "a record construction"
  | arrow .. | pi .. => "a function type"
  | bind _ .lambda .. => "a lambda"
  | bind _ .forallType .. => "a forall"
  | letIn .. => "a let expression"
  | app .. => "an application"
  | operation .. => "an operator application"

/-- Apply `fn` to `arg`, which stands after it. -/
def apply (fn arg : Expr) : Expr := app (fn.span.merge arg.span) fn arg

/-- Put an operator between two expressions. -/
def operate (operator : Name) (left right : Expr) : Expr :=
  operation (left.span.merge right.span) operator left right

/-- The head of an application followed by its arguments. -/
def spine : Expr → List Expr
  | app _ fn arg => spine fn ++ [arg]
  | e => [e]

end Expr

/-- A parsed text: the declarations of its top-level block. -/
structure File where
  span : Span
  decls : List (Decl Expr)

end Offside
