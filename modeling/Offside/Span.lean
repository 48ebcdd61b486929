-- SUMMARY: Spans of a source text, and the line and column positions of their ends.
import Offside.Text.Offset

/-! # Spans

A `Span` is a stretch of a source text given by the byte offsets of its ends.
A `Position` is the same place as a reader counts it, by line and column. -/

namespace Offside

/-- A place in a text: line and column, both counted from 1, the column in
characters. -/
structure Position where
  line : Nat
  column : Nat
  deriving DecidableEq, Repr

namespace Position

/-- The place reached after the text `before`. -/
def after (before : List Char) : Position where
  line := before.count '\n' + 1
  column := (before.reverse.takeWhile (· ≠ '\n')).length + 1

/-- A position as `line:column`. -/
def text (p : Position) : String :=
  s!"{p.line}:{p.column}"

end Position

/-- The bytes from offset `start` up to, and not including, offset `stop`. -/
structure Span where
  start : Nat
  stop : Nat
  deriving DecidableEq, Repr, Inhabited

namespace Span

/-- The empty span at `offset`. -/
def point (offset : Nat) : Span := ⟨offset, offset⟩

/-- The smallest span around both `a` and `b`. -/
def merge (a b : Span) : Span := ⟨min a.start b.start, max a.stop b.stop⟩

/-- The number of bytes of a span whose ends are in order. -/
def length? (a : Span) : Option Nat :=
  if a.start ≤ a.stop then some (a.stop - a.start) else none

/-- Whether both ends are the same offset. -/
def isEmpty (a : Span) : Bool := a.start == a.stop

/-- Whether `b` lies inside `a`. -/
def contains (a b : Span) : Bool := a.start ≤ b.start && b.stop ≤ a.stop

/-- Spans are ordered by start, then by stop. -/
def order (a b : Span) : Ordering :=
  (compare a.start b.start).then (compare a.stop b.stop)

/-- A span as `start..stop`. -/
def text (a : Span) : String :=
  s!"{a.start}..{a.stop}"

/-- The positions of the two ends in `source`, if the ends are in order and on
boundaries between its characters. -/
def positions? (a : Span) (source : String) : Option (Position × Position) :=
  if a.start ≤ a.stop then do
    let first ← Text.before? source.toList a.start
    let last ← Text.before? source.toList a.stop
    return (.after first, .after last)
  else none

/-- The text of `source` that the span covers, empty if it covers none. -/
def slice (a : Span) (source : String) : String :=
  match Text.slice? source.toList a.start a.stop with
  | some cs => String.ofList cs
  | none => ""

@[simp] theorem isEmpty_point (offset : Nat) : (point offset).isEmpty = true := by
  simp [point, isEmpty]

theorem contains_merge_left (a b : Span) : (merge a b).contains a = true :=
  Bool.and_eq_true_iff.2
    ⟨decide_eq_true (Nat.min_le_left _ _), decide_eq_true (Nat.le_max_left _ _)⟩

theorem contains_merge_right (a b : Span) : (merge a b).contains b = true :=
  Bool.and_eq_true_iff.2
    ⟨decide_eq_true (Nat.min_le_right _ _), decide_eq_true (Nat.le_max_right _ _)⟩

end Span

end Offside
