-- SUMMARY: The problems a source text can have, their wording, and their order.
import Offside.Span
import Offside.Token

/-! # Diagnostics

A `Problem` is a cause, and `Problem.message` its wording. A `Diagnostic` is a
problem at a span. Several diagnostics are put into the order of their starts;
those that start at the same place keep the order in which they were found. -/

namespace Offside

/-- The part of the analysis that found a problem. -/
inductive Stage where
  | lexical
  | layout
  | fixity
  | grammar
  deriving DecidableEq, Repr

namespace Stage

/-- The adjective of an error of this stage. -/
def text : Stage → String
  | lexical => "lexical"
  | layout => "layout"
  | fixity => "fixity"
  | grammar => "syntax"

/-- The code of an error of this stage. -/
def code : Stage → String
  | lexical => "LexError"
  | layout => "LayoutError"
  | fixity => "FixityError"
  | grammar => "SyntaxError"

end Stage

/-- What can be wrong with a source text. -/
inductive Problem where
  /-- A block comment runs to the end of the text. -/
  | unterminatedComment
  /-- A number does not fit in 64 bits. -/
  | integerTooLarge (digits : String)
  /-- Some bytes begin no UTF-8 character. -/
  | invalidUtf8
  /-- The input ends inside a UTF-8 character. -/
  | truncatedUtf8
  /-- A line starts between the columns of two enclosing blocks. -/
  | betweenBlocks (column outer inner : Nat)
  /-- A line starts left of the file's own block. -/
  | leftOfFile (column first : Nat)
  /-- A block opened with a brace runs to the end of the text. -/
  | unclosedBlock
  /-- A fixity declaration names a precedence above the limit. -/
  | precedenceOutOfRange (precedence limit : Nat)
  /-- A second fixity for one operator in one scope; `previous` stays. -/
  | fixityRedeclared (operator : String) (previous : Fixity)
  /-- Equally strong operators of different associativity meet. -/
  | mixedAssociativity (first : String) (firstFixity : Fixity)
      (second : String) (secondFixity : Fixity)
  /-- Equally strong operators without associativity meet. -/
  | ambiguousChain (first second : String) (precedence : Nat)
  /-- Something else was expected in place of a token. -/
  | unexpected (expected : String) (found : Token)
  /-- Expressions and blocks nest deeper than the limit. -/
  | nestingTooDeep (limit : Nat)
  /-- An arrow stands where an expression begins. -/
  | missingDomain
  /-- A typed parameter binds no name. -/
  | namelessParam
  /-- A record member stands outside a record. -/
  | memberOutsideRecord (keyword : Token)
  /-- A record names a second constructor. -/
  | secondConstructor
  /-- A declaration is neither a signature nor a definition. -/
  | neitherSignatureNorClause (first : Token)
  /-- A text that should be one expression holds another number of them. -/
  | notOneExpression (count : Nat)
  /-- An expression has no atoms at all. -/
  | missingOperand
  /-- An operator has nothing on its left. -/
  | missingLeftOperand (operator : String)
  /-- An operator has nothing on its right. -/
  | missingRightOperand (operator : String)
  /-- A chain of operators nests to the right deeper than the limit. -/
  | chainTooDeep (operator : String)
  /-- Some form of expression stands in a pattern. -/
  | notAPattern (form : String)
  /-- Typed parameters and other terms stand together before an arrow. -/
  | mixedDomain
  /-- A typed parameter stands in no arrow's domain. -/
  | strayParam
  /-- A problem that a client words itself. -/
  | stated (stage : Stage) (wording : String)
  deriving DecidableEq, Repr

namespace Problem

/-- The part of the analysis that finds a problem. -/
def stage : Problem → Stage
  | unterminatedComment | integerTooLarge _ | invalidUtf8 | truncatedUtf8 => .lexical
  | betweenBlocks .. | leftOfFile .. | unclosedBlock => .layout
  | precedenceOutOfRange .. | fixityRedeclared .. | mixedAssociativity .. | ambiguousChain .. =>
    .fixity
  | stated stage _ => stage
  | _ => .grammar

/-- How a found token is named: virtual tokens end a declaration. -/
def foundText : Token → String
  | .blockStart | .blockSep | .blockEnd => "end of declaration"
  | .eof => "end of file"
  | token => s!"`{token.text}`"

/-- The wording of a problem. -/
def message : Problem → String
  | unterminatedComment => "unterminated block comment"
  | integerTooLarge digits => s!"integer literal `{digits}` does not fit in 64 bits"
  | invalidUtf8 => "invalid UTF-8 sequence"
  | truncatedUtf8 => "truncated UTF-8 sequence at end of input"
  | betweenBlocks column outer inner =>
    s!"inconsistent indentation: column {column} lies between the enclosing block columns " ++
      s!"{outer} and {inner}"
  | leftOfFile column first =>
    s!"line is indented to column {column}, left of the file's first declaration at column {first}"
  | unclosedBlock => "block opened with `\x7b` is never closed"
  | precedenceOutOfRange precedence limit =>
    s!"precedence {precedence} is out of range 0..={limit}"
  | fixityRedeclared operator previous =>
    s!"operator `{operator}` already has a fixity declaration in this scope ({previous.text})"
  | mixedAssociativity first firstFixity second secondFixity =>
    s!"cannot mix `{first}` ({firstFixity.text}) and `{second}` ({secondFixity.text}) " ++
      "in the same expression"
  | ambiguousChain first second precedence =>
    s!"ambiguous non-associative operator chain: `{second}` cannot follow `{first}` " ++
      s!"at precedence {precedence} without parentheses"
  | unexpected expected found => s!"expected {expected}, found {foundText found}"
  | nestingTooDeep limit => s!"nesting exceeds the limit of {limit} levels"
  | missingDomain => "function type is missing its domain before `->`"
  | namelessParam => "typed parameter needs at least one name before `:`"
  | memberOutsideRecord keyword => s!"`{keyword.text}` is only allowed directly inside a record"
  | secondConstructor => "record already has a constructor"
  | neitherSignatureNorClause first =>
    "expected a type signature `:` or a definition `=` in declaration starting with " ++
      s!"`{first.text}`"
  | notOneExpression count => s!"expected exactly one expression, found {count}"
  | missingOperand => "expected an operand"
  | missingLeftOperand operator => s!"operator `{operator}` is missing its left operand"
  | missingRightOperand operator => s!"operator `{operator}` is missing its right operand"
  | chainTooDeep operator => s!"operator chain nests too deeply at `{operator}`"
  | notAPattern form => s!"{form} is not allowed in a pattern"
  | mixedDomain => "typed parameters cannot be mixed with other terms before `->`"
  | strayParam => "a typed parameter is only allowed in front of `->`"
  | stated _ wording => wording

end Problem

/-- A problem and where it is. -/
structure Diagnostic where
  problem : Problem
  span : Span
  deriving DecidableEq, Repr

/-- A problem at a span. -/
def Problem.at (problem : Problem) (span : Span) : Diagnostic := ⟨problem, span⟩

namespace Diagnostic

/-- The code of the stage that found the problem. -/
def code (d : Diagnostic) : String := d.problem.stage.code

/-- The wording of the problem. -/
def message (d : Diagnostic) : String := d.problem.message

/-- A diagnostic without its source: stage, byte span and message. -/
def text (d : Diagnostic) : String :=
  s!"{d.problem.stage.text} error at {d.span.text}: {d.message}"

/-- A diagnostic against the text it is about: the position of its start, or
its byte span if that does not fit the text, then code and message. -/
def render (d : Diagnostic) (source : String) : String :=
  let place := match d.span.positions? source with
    | some (first, _) => first.text
    | none => d.span.text
  s!"{place}: {d.code}: {d.message}"

/-- Order by start; diagnostics with the same start keep their order. -/
def sort (ds : List Diagnostic) : List Diagnostic :=
  ds.mergeSort fun a b => a.span.start ≤ b.span.start

/-- Sorting only reorders. -/
theorem sort_perm (ds : List Diagnostic) : (sort ds).Perm ds :=
  List.mergeSort_perm ds _

end Diagnostic

end Offside
