-- SUMMARY: Columns counted in 32 bits, with every operation checked.
import Offside.Lexeme.Scan

/-! # Columns in 32 bits

A scan carries the column along in numbers of any size. The program has 32 bits
for a column, and counts it anew for each lexeme from the start of its line.
Every operation of the count is checked: a result that does not fit ends the
program, so that a text with such a lexeme has no tokens at all. -/

namespace Offside

/-- The part of a text behind its last newline. -/
def Text.lastLine (cs : List Char) : List Char := (cs.reverse.takeWhile (· ≠ '\n')).reverse

namespace Column

/-- A number in 32 bits, if it fits. -/
def fit? (n : Nat) : Option UInt32 := if n < UInt32.size then some (.ofNat n) else none

/-- The sum of two numbers, if it fits. -/
def add? (a b : UInt32) : Option UInt32 := fit? (a.toNat + b.toNat)

/-- The product of two numbers, if it fits. -/
def mul? (a b : UInt32) : Option UInt32 := fit? (a.toNat * b.toNat)

/-- The difference of two numbers, if it is not negative. -/
def sub? (a b : UInt32) : Option UInt32 := if b ≤ a then some (a - b) else none

/-- The column behind `c`: a tab goes to the next tab stop. -/
def past? (tabWidth column : UInt32) (c : Char) : Option UInt32 :=
  if c = '\t' ∧ 0 < tabWidth then do
    let passed ← sub? column 1
    let stops ← add? (passed / tabWidth) 1
    let reached ← mul? stops tabWidth
    add? reached 1
  else add? column 1

/-- The column behind the text `line`, which starts a line. -/
def at? (tabWidth : UInt32) (line : List Char) : Option UInt32 :=
  line.foldlM (past? tabWidth) 1

end Column

namespace Lexeme

/-- A lexeme of `source` with its column counted in 32 bits. -/
def recount? (tabWidth : UInt32) (source : String) (tok : Lexeme) : Option Lexeme := do
  let before ← Text.before? source.toList tok.span.start
  let column ← Column.at? tabWidth (Text.lastLine before)
  return { tok with column := column.toNat }

/-- The lexemes of a source text, if all columns fit. -/
def scan? (tabWidth : UInt32) (source : String) : Option TokenStream := do
  let stream := scan tabWidth.toNat source
  let lexemes ← stream.lexemes.mapM (recount? tabWidth source)
  return { stream with lexemes }

/-- The lexemes of a source text, if the tab width fits and all columns do. -/
def scanFit? (tabWidth : Nat) (source : String) : Option TokenStream := do
  scan? (← Column.fit? tabWidth) source

/-- Whether a source text has tokens at all. -/
def columnsFit (tabWidth : Nat) (source : String) : Bool :=
  (scanFit? tabWidth source).isSome

end Lexeme

end Offside
