-- SUMMARY: The limits and widths that one parse can be given.

/-! # Parse options -/

namespace Offside

/-- The limits and widths of one parse. -/
structure Options where
  /-- Tab stops are this many columns apart; 0 makes a tab an ordinary character. -/
  tabWidth : Nat := 8
  /-- The highest precedence that a fixity declaration may use. -/
  maxPrecedence : Nat := 9
  /-- How deep brackets, arrows, binders, blocks and right-nested operator
  chains may nest. -/
  maxNesting : Nat := 128
  deriving DecidableEq, Repr

end Offside
