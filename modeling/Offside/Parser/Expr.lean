-- SUMMARY: The grammar of expressions.
import Offside.Concrete
import Offside.Parser.Block

/-! # Parsing expressions

The productions are given over an `Inner`: the parsers for what nests one level
deeper. None of them is recursive by itself; `Inner` is tied to them level by
level, which bounds the nesting. -/

namespace Offside

namespace Parser

/-- A member of a record type. -/
inductive Member where
  | builder (name : Name)
  | field (signature : Signature Concrete.Expr)
  | decl (decl : Decl Concrete.Expr)

/-- The parsers for what nests one level deeper. -/
structure Inner where
  expr : Parser Concrete.Expr
  /-- A block of declarations. -/
  decls : Parser (List (Decl Concrete.Expr))
  /-- A block of constructors of a data type. -/
  constructors : Parser (List (Signature Concrete.Expr))
  /-- A block of members of a record type. -/
  members : Parser (List Member)

/-- Whether an atom starts here. -/
def atAtom (c : Cursor) : Bool :=
  match c.token with
  | .ident _ | .underscore | .unit | .kwType | .integer _ | .lparen | .lbrace | .kwRecord => true
  | _ => false

/-- Whether a form starts here that extends as far right as it can. -/
def atTail (c : Cursor) : Bool :=
  match c.token with
  | .backslash | .kwForall | .kwLet => true
  | _ => false

/-- Whether a bracket opens here. -/
def atBracket (c : Cursor) : Bool := c.isAt .lparen || c.isAt .lbrace

/-- A name to bind. An underscore binds nothing. -/
def boundName (expected : String) : Parser Name := do
  if ← look (·.isAt .underscore) then
    let tok ← advance
    return ⟨"_", tok.span⟩
  else name expected

namespace Inner

variable (inner : Inner)

/-- `( names : type )`, or the same in braces. -/
def param : Parser (Param Concrete.Expr) := do
  let opening ← advance
  let isImplicit : Bool := opening.token = .lbrace
  let names ← whileAt (!·.isAt .colon) (boundName "a parameter name")
  if names.isEmpty then failHere .namelessParam
  else
    let _ ← advance
    let type ← inner.expr
    if isImplicit then expect .rbrace "to close `\x7b`" else expect .rparen "to close `(`"
    return ⟨← spanFrom opening.span.start, isImplicit, names, type⟩

/-- One binding of a lambda or quantifier. -/
def binding (expected : String) : Parser (Binding Concrete.Expr) := do
  if ← look atBracket then
    if ← look (·.atTypedParam) then .typed <$> inner.param
    else unexpected "a typed binding `(x : A)`"
  else .name <$> boundName expected

/-- One or more bindings and the arrow after them. -/
def bindings (expected : String) : Parser (List (Binding Concrete.Expr)) := do
  let bindings ← whileAt (!·.isAt .arrow) (inner.binding expected)
  if bindings.isEmpty then unexpected expected
  else
    let _ ← advance
    return bindings

/-- A binder, its bindings, an arrow and a body. -/
def bind (binder : Binder) (expected : String) : Parser Concrete.Expr := do
  let keyword ← advance
  let bindings ← inner.bindings expected
  let body ← inner.expr
  return .bind (← spanFrom keyword.span.start) binder bindings body

/-- `let` declarations `in` body. -/
def letIn : Parser Concrete.Expr := do
  let keyword ← advance
  let decls ← inner.decls
  expect .kwIn "after let bindings"
  let body ← inner.expr
  return .letIn (← spanFrom keyword.span.start) decls body

/-- `name = value` in a record value. -/
def assignment : Parser (Assignment Concrete.Expr) := do
  let name ← name "a field name"
  expect .equals "after field name"
  let value ← inner.expr
  return ⟨← spanFrom name.span.start, name, value⟩

/-- The assignments of a record value, with semicolons between. -/
def assignments : Parser (List (Assignment Concrete.Expr)) := do
  if ← look (·.isAt .rbrace) then return []
  else
    let first ← inner.assignment
    let others ← whileAt (!·.isAt .rbrace) do
      expect .semicolon "between record fields"
      inner.assignment
    return first :: others

/-- A record value: `record P { x = a ; y = b }`. -/
def recordValue : Parser Concrete.Atom := do
  let keyword ← advance
  let builder ←
    if ← look atIdent then some <$> qualifiedName "a record constructor" else pure none
  expect .lbrace "to start record fields"
  let fields ← inner.assignments
  let _ ← advance
  return .record (← spanFrom keyword.span.start) builder fields

/-- A parenthesis around an expression. -/
def paren : Parser Concrete.Atom := do
  let opening ← advance
  let e ← inner.expr
  expect .rparen "to close `(`"
  return .paren (← spanFrom opening.span.start) e

/-- The current token as a leaf. -/
def leaf (make : Span → Leaf) : Parser Concrete.Atom := do
  let tok ← advance
  return .leaf (make tok.span)

/-- One atom of a run. -/
def atom : Parser Concrete.Atom := do
  match ← look (·.token) with
  | .ident _ => return .leaf (.name (← qualifiedName "a name"))
  | .underscore => leaf .hole
  | .unit => leaf .unit
  | .kwType => leaf .type
  | .integer value => leaf (.integer · value)
  | .lparen => if ← look (·.atTypedParam) then .param <$> inner.param else inner.paren
  | .lbrace => .param <$> inner.param
  | .kwRecord => inner.recordValue
  | _ => unexpected "an expression"

/-- A run of atoms, with a lambda, quantifier or `let` at its end if there is
one. -/
def run : Parser (List Concrete.Atom) := do
  let atoms ← whileAt atAtom inner.atom
  let last ← if ← look atTail then (fun e => [.tail e]) <$> inner.expr else pure []
  let run := atoms ++ last
  if run.isEmpty then unexpected "an expression" else return run

/-- A run, or a run with an arrow and a codomain after it. -/
def runOrArrow : Parser Concrete.Expr := do
  let start ← start
  let atoms ← inner.run
  if ← eat .arrow then
    let codomain ← inner.expr
    return .arrow (← spanFrom start) atoms codomain
  else return .run (← spanFrom start) atoms

/-- An expression whose parts are read by `inner`. -/
def expression : Parser Concrete.Expr := do
  match ← look (·.token) with
  | .backslash => inner.bind .lambda "a lambda binding"
  | .kwForall => inner.bind .forallType "a forall binding"
  | .kwLet => inner.letIn
  | .arrow => failHere .missingDomain
  | _ => inner.runOrArrow

end Inner

end Parser

end Offside
