-- SUMMARY: Expressions as written, before operators are known.
import Offside.Expr

/-! # Concrete expressions

Which names are operators is known only once the fixity declarations of all
enclosing scopes have been read. Until then every place where operators may
occur holds a run: a flat list of atoms. -/

namespace Offside

namespace Concrete

mutual

/-- An expression whose operators are not resolved. -/
inductive Expr where
  /-- Atoms side by side: `f x + g y`. -/
  | run (span : Span) (atoms : List Atom)
  /-- A run before an arrow. -/
  | arrow (span : Span) (domain : List Atom) (codomain : Expr)
  | bind (span : Span) (binder : Binder) (bindings : List (Binding Expr)) (body : Expr)
  | letIn (span : Span) (decls : List (Decl Expr)) (body : Expr)

/-- A member of a run. -/
inductive Atom where
  /-- A name among these is an operator if it is not qualified and has a
  fixity. -/
  | leaf (leaf : Leaf)
  | paren (span : Span) (inner : Expr)
  /-- Means something only before an arrow. -/
  | param (param : Param Expr)
  | record (span : Span) (builder : Option QualifiedName) (fields : List (Assignment Expr))
  /-- A lambda, quantifier or `let` at the end of a run. -/
  | tail (expr : Expr)

end

/-- The span of an expression. -/
def Expr.span : Expr → Span
  | run span .. | arrow span .. | bind span .. | letIn span .. => span

/-- The span of an atom. -/
def Atom.span : Atom → Span
  | leaf l => l.span
  | paren span .. | record span .. => span
  | param p => p.span
  | tail e => e.span

end Concrete

end Offside
