-- SUMMARY: Operator fixities: a direction of grouping and a binding strength.

/-! # Fixities

A fixity says how an operator groups in a chain: its precedence decides
between operators of different strength, its associativity between operators
of the same strength. -/

namespace Offside

/-- The direction in which a chain of equally strong operators groups. -/
inductive Associativity where
  | left
  | right
  /-- Such a chain is ambiguous and has to be parenthesised. -/
  | none
  deriving DecidableEq, Repr

/-- The keyword that declares operators of this associativity. -/
def Associativity.keyword : Associativity → String
  | .left => "infixl"
  | .right => "infixr"
  | .none => "infix"

/-- How an operator groups. A higher precedence binds tighter. -/
structure Fixity where
  assoc : Associativity
  precedence : Nat
  deriving DecidableEq, Repr

/-- A fixity as it is declared, without the operators: `infixl 6`. -/
def Fixity.text (f : Fixity) : String :=
  s!"{f.assoc.keyword} {f.precedence}"

end Offside
