-- SUMMARY: The operands and operators of a run, and their grouping by precedence and associativity.
import Offside.Expr
import Offside.Fixity.Table

/-! # Queues of operands and operators

A run is made of pieces: operands and operators. Operands side by side are
applications, which bind tighter than any operator. What is left goes into two
queues, one of operands and one of operators (`Queues.ofPieces`), and
`Queues.climb` takes from both of them and groups by precedence climbing. Two
operators of the same precedence that meet have to agree on a direction. -/

namespace Offside

namespace Fixity

/-- An operator where it occurs, with its fixity. -/
structure Operator where
  name : Name
  fixity : Fixity
  deriving DecidableEq, Repr

/-! ## Pieces -/

/-- A member of a run once operators are known. -/
inductive Piece where
  | operand (expr : Expr)
  | operator (operator : Operator)

/-- Put a piece behind others, the last of which comes first. An operand behind
an operand is its argument. -/
def Piece.push : List Piece → Piece → List Piece
  | .operand fn :: pieces, .operand arg => .operand (fn.apply arg) :: pieces
  | pieces, piece => piece :: pieces

/-- The pieces of a run, with operands side by side made applications. -/
def Piece.applied (pieces : List Piece) : List Piece := (pieces.foldl push []).reverse

/-! ## Meeting operators -/

/-- Two operators that meet at the same precedence must group the same way. -/
def checkMeeting (first second : Operator) : Except Diagnostic Unit :=
  if first.fixity.precedence ≠ second.fixity.precedence then .ok ()
  else if first.fixity.assoc ≠ second.fixity.assoc then
    .error ((Problem.mixedAssociativity first.name.text first.fixity
      second.name.text second.fixity).at second.name.span)
  else if second.fixity.assoc = .none then
    .error ((Problem.ambiguousChain first.name.text second.name.text
      second.fixity.precedence).at second.name.span)
  else .ok ()

/-- What has to hold of an operator when it meets the one before it, if there is
one. -/
def checkPrevious (previous : Option Operator) (op : Operator) : Except Diagnostic Unit :=
  match previous with
  | some previous => checkMeeting previous op
  | none => .ok ()

/-- The least precedence that the right operand of an operator may hold. -/
def rightFloor (f : Fixity) : Nat :=
  match f.assoc with
  | .right => f.precedence
  | .left | .none => f.precedence + 1

/-! ## Queues -/

/-- The operands and the operators of a run that are not grouped yet, each from
left to right. -/
structure Queues where
  operands : List Expr
  operators : List Operator

namespace Queues

/-- Queue the pieces of a run. `last` is the operator before them, if there is
one: every operator needs an operand on both sides. -/
def enqueue (q : Queues) (last : Option Operator) : List Piece → Except Diagnostic Queues
  | [] =>
    match last with
    | some op => .error ((Problem.missingRightOperand op.name.text).at op.name.span)
    | none => .ok q
  | .operand e :: pieces => enqueue { q with operands := q.operands ++ [e] } none pieces
  | .operator op :: pieces =>
    if q.operands.length = q.operators.length then
      .error ((Problem.missingLeftOperand op.name.text).at op.name.span)
    else enqueue { q with operators := q.operators ++ [op] } (some op) pieces

/-- The queues of a run. -/
def ofPieces (pieces : List Piece) : Except Diagnostic Queues :=
  enqueue ⟨[], []⟩ none (Piece.applied pieces)

/-- The next operand of the run at `span`, and the operands after it. -/
def nextOperand (span : Span) : List Expr → Except Diagnostic (Expr × List Expr)
  | [] => .error (Problem.missingOperand.at span)
  | e :: operands => .ok (e, operands)

/-- The queues that a group leaves, of those it was given. -/
abbrev Left (q : Queues) : Type :=
  { left : Queues // left.operators.length ≤ q.operators.length }

mutual

/-- Group the next operand with the operators after it that bind at least as
tight as `floor`. `previous` is the operator before the operand. At most `budget`
right operands may be open at once. -/
def climb (span : Span) (budget floor : Nat) (previous : Option Operator) (q : Queues) :
    Except Diagnostic (Expr × Left q) := do
  let (operand, operands) ← nextOperand span q.operands
  extend span budget floor previous operand ⟨operands, q.operators⟩
  termination_by 2 * q.operators.length + 1

/-- Go on grouping with `operand` as what has been grouped so far. `previous` is
the last operator grouped, or else the one before the group. -/
def extend (span : Span) (budget floor : Nat) (previous : Option Operator) (operand : Expr) :
    (q : Queues) → Except Diagnostic (Expr × Left q)
  | ⟨operands, []⟩ => .ok (operand, ⟨⟨operands, []⟩, Nat.le_refl _⟩)
  | ⟨operands, op :: operators⟩ =>
    if op.fixity.precedence < floor then
      .ok (operand, ⟨⟨operands, op :: operators⟩, Nat.le_refl _⟩)
    else do
      checkPrevious previous op
      match budget with
      | 0 => .error ((Problem.chainTooDeep op.name.text).at op.name.span)
      | budget + 1 =>
        let (right, ⟨left, h⟩) ←
          climb span budget (rightFloor op.fixity) (some op) ⟨operands, operators⟩
        let (group, ⟨rest, h'⟩) ←
          extend span (budget + 1) floor (some op) (.operate op.name operand right) left
        .ok (group, ⟨rest, Nat.le_succ_of_le (Nat.le_trans h' h)⟩)
  termination_by q => 2 * q.operators.length
  decreasing_by
    · simp only [List.length_cons]
      omega
    · simp only [List.length_cons] at h ⊢
      omega

end

/-- The expression that the queues of the run at `span` mean. -/
def group (budget : Nat) (span : Span) (q : Queues) : Except Diagnostic Expr := do
  let (e, _) ← q.climb span budget 0 none
  .ok e

end Queues

end Fixity

end Offside
