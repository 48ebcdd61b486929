-- SUMMARY: The grammar with plain repetitions: a round that reads nothing does not end them, so reading might not end.
import Mathlib.Data.PFun
import Offside.Proofs.Parser.Traversal

/-! # Parsers that may not end

`Parser.whileAt` stops after a round that reads nothing, so it ends on every
stream. A plain repetition has no such check: it goes on as long as its condition
holds, and if a round read nothing it could go on for ever. Here the grammar is
given once more, with plain repetitions only, also where separators and items are
skipped token by token. A `PartialParser` is a partial function, not defined where
it does not end. -/

namespace Offside

/-! ## Tokens of an item -/

namespace Token

/-- Whether an item ends before the token, when `blocks` and `brackets` are open
in it. -/
def endsItem (blocks brackets : Nat) : Token → Bool
  | eof => true
  | blockSep | blockEnd => blocks == 0
  | semicolon => blocks == 0 && brackets == 0
  | _ => false

/-- How many blocks are open behind the token. -/
def blocksAfter (blocks : Nat) : Token → Nat
  | blockStart => blocks + 1
  | blockEnd => blocks - 1
  | _ => blocks

/-- How many brackets are open behind the token. -/
def bracketsAfter (brackets : Nat) : Token → Nat
  | lparen | lbrace => brackets + 1
  | rparen | rbrace => brackets - 1
  | _ => brackets

end Token

/-- A parser of `α` that need not end. -/
def PartialParser (α : Type) : Type := Cursor →. Report α × Cursor

namespace PartialParser

open Offside.Parser (advance atAtom atBracket atIdent atItemEnd atSegment atTail boundName eat
  expect failHere look moreItems name precedence record spanFrom start unexpected)

variable {α β : Type}

/-! ## Combinators -/

/-- Go on with a value where the first parser stopped. -/
def andThen (w : PartialParser α) (next : α → PartialParser β) : PartialParser β := fun c => do
  let (r, c₁) ← w c
  match r.result with
  | .error d => return (⟨r.diagnostics, .error d⟩, c₁)
  | .ok a =>
    let (r', c₂) ← next a c₁
    return (⟨r.diagnostics ++ r'.diagnostics, r'.result⟩, c₂)

instance : Monad PartialParser where
  pure a := fun c => .some (pure a, c)
  bind := andThen

/-- What ends anyway. -/
instance : MonadLift Parser PartialParser where
  monadLift p := fun c => .some (p c)

/-- Go on with how a parser ends, be it a value or a problem. -/
def attempt (w : PartialParser α) : PartialParser (Except Diagnostic α) := fun c => do
  let (r, c₁) ← w c
  return (r.defer, c₁)

/-- Record the problem of a parser that fails, and go on without its value. -/
def settle (w : PartialParser α) : PartialParser (Option α) := fun c => do
  let (r, c₁) ← w c
  return (.noted r.settle, c₁)

/-- Read `t` and then `w`, if `t` is there. -/
def optional (t : Token) (w : PartialParser α) : PartialParser (Option α) := do
  if ← eat t then some <$> w else pure none

/-! ## Repetition -/

/-- What the rounds of a repetition have given, `last` in the last one, and where they
have led. -/
structure Rounds (α : Type) where
  diagnostics : List Diagnostic
  values : List α
  last : Option α
  cursor : Cursor

/-- One more round as long as `more` holds. The repetition is over, or it goes on. -/
def again (more : Option α → Cursor → Bool) (round : PartialParser α) :
    Rounds α →. (Report (List α) × Cursor) ⊕ Rounds α := fun s =>
  if more s.last s.cursor then do
    let (r, c) ← round s.cursor
    match r.result with
    | .error d => return .inl (⟨s.diagnostics ++ r.diagnostics, .error d⟩, c)
    | .ok a => return .inr ⟨s.diagnostics ++ r.diagnostics, s.values ++ [a], some a, c⟩
  else return .inl (⟨s.diagnostics, .ok s.values⟩, s.cursor)

/-- Repeat `round` as long as `more` holds of the value before and of the cursor,
whatever a round reads. -/
def whileFrom (more : Option α → Cursor → Bool) (round : PartialParser α) (last : Option α) :
    PartialParser (List α) := fun c =>
  (again more round).fix ⟨[], [], last, c⟩

/-- Repeat `round` as long as `more` holds of the cursor. -/
def whileAt (more : Cursor → Bool) (round : PartialParser α) : PartialParser (List α) :=
  whileFrom (fun _ => more) round none

/-- Read past separators, one by one. -/
def skipSeparators : PartialParser Unit := do
  let _ ← whileAt (·.token.isSeparator) advance

/-- A place in an item, and how many blocks and brackets are open there. -/
structure Inside where
  blocks : Nat
  brackets : Nat
  cursor : Cursor

/-- One more token of an item. The item is over, or it goes on. -/
def nextToken : Inside →. (Report Unit × Cursor) ⊕ Inside := fun s =>
  let t := s.cursor.token
  if t.endsItem s.blocks s.brackets then return .inl (pure (), s.cursor)
  else return .inr ⟨t.blocksAfter s.blocks, t.bracketsAfter s.brackets, s.cursor.advance⟩

/-- Read to the end of an item token by token, when `blocks` and `brackets` are
open in it. -/
def skipItem (blocks brackets : Nat) : PartialParser Unit := fun c =>
  nextToken.fix ⟨blocks, brackets, c⟩

/-! ## Items and blocks -/

/-- Read one item up to its end. What does not belong to it is recorded as a
problem and skipped. -/
def item (w : PartialParser α) : PartialParser (Option α) := do
  match ← w.attempt with
  | .error d =>
    record [d]
    skipItem 0 0
    return none
  | .ok a =>
    if ← look atItemEnd then return some a
    else
      record [← look (·.unexpected "the end of the declaration")]
      skipItem 0 0
      return some a

/-- A block of items. -/
def block (w : PartialParser α) : PartialParser (List α) := do
  expect .blockStart "to open a block"
  let items ← whileAt moreItems (do skipSeparators; item w)
  skipSeparators
  if ← eat .blockEnd then return items.filterMap id
  else unexpected "the end of the block"

/-! ## Names -/

/-- One or more identifiers. -/
def names (expected : String) : PartialParser (List Name) := do
  let first ← name expected
  let others ← whileAt atIdent (name expected)
  return first :: others

/-- Identifiers with dots between, and no blanks. -/
def qualifiedName (expected : String) : PartialParser QualifiedName := do
  let first ← name expected
  let others ← whileFrom (fun last => atSegment (last.getD first).span.stop)
    (do let _ ← advance; name "a name after `.`") none
  let stop := ((first :: others).getLast?.getD first).span.stop
  return ⟨⟨first.span.start, stop⟩, first :: others⟩

/-! ## Productions -/

/-- `infixl 6 + -`, at the keyword. -/
def fixityDeclaration (options : Options) (assoc : Associativity) :
    PartialParser (Decl Concrete.Expr) := do
  let keyword ← advance
  let precedence ← precedence options.maxPrecedence
  let operators ← names "an operator name"
  return .fixity (← spanFrom keyword.span.start) ⟨assoc, precedence⟩ operators

/-- `import M`, `open M` or `open import M`, at the keyword. -/
def importModule : PartialParser (Decl Concrete.Expr) := do
  let keyword ← advance
  let kind ←
    if keyword.token = .kwOpen then
      if ← eat .kwImport then pure ImportKind.openImport else pure .openOnly
    else pure .importOnly
  let name ← qualifiedName "a module name"
  return .importModule (← spanFrom keyword.span.start) kind name

/-- The parsers for what nests one level deeper. -/
structure Inner where
  expr : PartialParser Concrete.Expr
  decls : PartialParser (List (Decl Concrete.Expr))
  constructors : PartialParser (List (Signature Concrete.Expr))
  members : PartialParser (List Parser.Member)

namespace Inner

variable (inner : Inner)

/-- `( names : type )`, or the same in braces. -/
def param : PartialParser (Param Concrete.Expr) := do
  let opening ← advance
  let isImplicit : Bool := opening.token = .lbrace
  let names ← whileAt (!·.isAt .colon) (boundName "a parameter name")
  if names.isEmpty then failHere .namelessParam
  else
    let _ ← advance
    let type ← inner.expr
    if isImplicit then expect .rbrace "to close `\x7b`" else expect .rparen "to close `(`"
    return ⟨← spanFrom opening.span.start, isImplicit, names, type⟩

/-- One binding of a lambda or quantifier. -/
def binding (expected : String) : PartialParser (Binding Concrete.Expr) := do
  if ← look atBracket then
    if ← look (·.atTypedParam) then .typed <$> inner.param
    else unexpected "a typed binding `(x : A)`"
  else .name <$> boundName expected

/-- One or more bindings and the arrow after them. -/
def bindings (expected : String) : PartialParser (List (Binding Concrete.Expr)) := do
  let bindings ← whileAt (!·.isAt .arrow) (inner.binding expected)
  if bindings.isEmpty then unexpected expected
  else
    let _ ← advance
    return bindings

/-- A binder, its bindings, an arrow and a body. -/
def bind (binder : Binder) (expected : String) : PartialParser Concrete.Expr := do
  let keyword ← advance
  let bindings ← inner.bindings expected
  let body ← inner.expr
  return .bind (← spanFrom keyword.span.start) binder bindings body

/-- `let` declarations `in` body. -/
def letIn : PartialParser Concrete.Expr := do
  let keyword ← advance
  let decls ← inner.decls
  expect .kwIn "after let bindings"
  let body ← inner.expr
  return .letIn (← spanFrom keyword.span.start) decls body

/-- `name = value` in a record value. -/
def assignment : PartialParser (Assignment Concrete.Expr) := do
  let name ← name "a field name"
  expect .equals "after field name"
  let value ← inner.expr
  return ⟨← spanFrom name.span.start, name, value⟩

/-- The assignments of a record value, with semicolons between. -/
def assignments : PartialParser (List (Assignment Concrete.Expr)) := do
  if ← look (·.isAt .rbrace) then return []
  else
    let first ← inner.assignment
    let others ← whileAt (!·.isAt .rbrace) do
      expect .semicolon "between record fields"
      inner.assignment
    return first :: others

/-- A record value: `record P { x = a ; y = b }`. -/
def recordValue : PartialParser Concrete.Atom := do
  let keyword ← advance
  let builder ←
    if ← look atIdent then some <$> qualifiedName "a record constructor" else pure none
  expect .lbrace "to start record fields"
  let fields ← inner.assignments
  let _ ← advance
  return .record (← spanFrom keyword.span.start) builder fields

/-- A parenthesis around an expression. -/
def paren : PartialParser Concrete.Atom := do
  let opening ← advance
  let e ← inner.expr
  expect .rparen "to close `(`"
  return .paren (← spanFrom opening.span.start) e

/-- One atom of a run. -/
def atom : PartialParser Concrete.Atom := do
  match ← look (·.token) with
  | .ident _ => return .leaf (.name (← qualifiedName "a name"))
  | .underscore => Parser.Inner.leaf .hole
  | .unit => Parser.Inner.leaf .unit
  | .kwType => Parser.Inner.leaf .type
  | .integer value => Parser.Inner.leaf (.integer · value)
  | .lparen => if ← look (·.atTypedParam) then .param <$> inner.param else inner.paren
  | .lbrace => .param <$> inner.param
  | .kwRecord => inner.recordValue
  | _ => unexpected "an expression"

/-- A run of atoms, with a lambda, quantifier or `let` at its end if there is
one. -/
def run : PartialParser (List Concrete.Atom) := do
  let atoms ← whileAt atAtom inner.atom
  let last ← if ← look atTail then (fun e => [.tail e]) <$> inner.expr else pure []
  let run := atoms ++ last
  if run.isEmpty then unexpected "an expression" else return run

/-- A run, or a run with an arrow and a codomain after it. -/
def runOrArrow : PartialParser Concrete.Expr := do
  let start ← start
  let atoms ← inner.run
  if ← eat .arrow then
    let codomain ← inner.expr
    return .arrow (← spanFrom start) atoms codomain
  else return .run (← spanFrom start) atoms

/-- An expression whose parts are read by `inner`. -/
def expression : PartialParser Concrete.Expr := do
  match ← look (·.token) with
  | .backslash => inner.bind .lambda "a lambda binding"
  | .kwForall => inner.bind .forallType "a forall binding"
  | .kwLet => inner.letIn
  | .arrow => failHere .missingDomain
  | _ => inner.runOrArrow

/-- The typed parameters of a header. -/
def params : PartialParser (List (Param Concrete.Expr)) := whileAt atBracket inner.param

/-- The header of a data or record type, after its keyword. -/
def header (expected : String) : PartialParser (Header Concrete.Expr) := do
  let name ← name expected
  let params ← inner.params
  let type ← optional .colon inner.expr
  return ⟨name, params, type⟩

/-- The names of a signature, a colon and a type. The span begins at `start`. -/
def signature (start : Nat) (expected context : String) :
    PartialParser (Signature Concrete.Expr) := do
  let names ← names expected
  expect .colon context
  let type ← inner.expr
  return ⟨← spanFrom start, names, type⟩

/-- A data type, at its keyword. -/
def dataType : PartialParser (Decl Concrete.Expr) := do
  let keyword ← advance
  let header ← inner.header "a name after `data`"
  if ← eat .kwWhere then
    let constructors ← inner.constructors
    return .dataType (← spanFrom keyword.span.start) header constructors
  else return .emptyData (← spanFrom keyword.span.start) header

/-- Constructors with their type. A bar may stand before them. -/
def constructorSignature : PartialParser (Signature Concrete.Expr) := do
  let start ← start
  let _ ← eat .pipe
  inner.signature start "a constructor name" "after constructor names"

/-- A record type, at its keyword. -/
def recordType : PartialParser (Decl Concrete.Expr) := do
  let keyword ← advance
  let header ← inner.header "a name after `record`"
  expect .kwWhere "after record header"
  let members ← inner.members
  let builders := members.filterMap fun | .builder name => some name | _ => none
  let fields := members.filterMap fun | .field signature => some signature | _ => none
  let decls := members.filterMap fun | .decl decl => some decl | _ => none
  record (builders.tail.map fun name => Problem.secondConstructor.at name.span)
  return .recordType (← spanFrom keyword.span.start) header builders.head? fields decls

/-- A module, at its keyword. -/
def moduleBlock : PartialParser (Decl Concrete.Expr) := do
  let keyword ← advance
  let name ← qualifiedName "a module name"
  let params ← inner.params
  expect .kwWhere "after module header"
  let decls ← inner.decls
  return .moduleBlock (← spanFrom keyword.span.start) name params decls

/-- `f g : A`. -/
def ascription : PartialParser (Decl Concrete.Expr) := do
  let start ← start
  .ascription <$> inner.signature start "a name in type signature" "after names in type signature"

/-- A defining clause. -/
def clause : PartialParser (Decl Concrete.Expr) := do
  let start ← start
  let lhs ← inner.expr
  let withPatterns ← whileAt (·.isAt .pipe) (do let _ ← advance; inner.expr)
  let withExpr ← optional .kwWith inner.expr
  let rhs ← optional .equals inner.expr
  if withExpr.isNone && rhs.isNone then unexpected "`=` or `with` after clause patterns"
  else
    let locals ← optional .kwWhere inner.decls
    return .clause (← spanFrom start) [lhs] false withPatterns withExpr rhs (locals.getD [])

/-- A declaration without a keyword. -/
def signatureOrClause : PartialParser (Decl Concrete.Expr) := do
  match ← look (·.firstInItem? [.colon, .equals, .kwWith, .pipe]) with
  | some .colon => inner.ascription
  | some _ => inner.clause
  | none => failHere (.neitherSignatureNorClause (← look (·.token)))

/-- A declaration. -/
def declaration (options : Options) : PartialParser (Decl Concrete.Expr) := do
  match ← look (·.token) with
  | .kwData => inner.dataType
  | .kwRecord => inner.recordType
  | .kwModule => inner.moduleBlock
  | .kwImport | .kwOpen => importModule
  | .kwFixity assoc => fixityDeclaration options assoc
  | .kwField => failHere (.memberOutsideRecord .kwField)
  | .kwConstructor => failHere (.memberOutsideRecord .kwConstructor)
  | _ => inner.signatureOrClause

/-- A member of a record type. -/
def member (options : Options) : PartialParser Parser.Member := do
  match ← look (·.token) with
  | .kwConstructor =>
    let _ ← advance
    .builder <$> name "a constructor name"
  | .kwField =>
    let keyword ← advance
    .field <$> inner.signature keyword.span.start "a field name" "after field names"
  | _ => .decl <$> inner.declaration options

end Inner

/-! ## Nesting -/

/-- A parser that goes one level deeper, when `levels` are left. -/
def deeper (limit levels : Nat) (body : Nat → PartialParser α) : PartialParser α :=
  match levels with
  | 0 => failHere (.nestingTooDeep limit)
  | levels + 1 => body levels

/-- The parsers for what may nest `levels` deep and no deeper. -/
def inner (options : Options) : (levels : Nat) → Inner
  | 0 =>
    let tooDeep := Problem.nestingTooDeep options.maxNesting
    ⟨failHere tooDeep, failHere tooDeep, failHere tooDeep, failHere tooDeep⟩
  | levels + 1 =>
    { expr := (inner options levels).expression
      decls := block ((inner options levels).declaration options)
      constructors := block (inner options levels).constructorSignature
      members := block ((inner options levels).member options) }

/-- A file: its declarations, and nothing after them. -/
def file (decls : PartialParser (List (Decl Concrete.Expr))) :
    PartialParser (List (Decl Concrete.Expr)) := do
  let decls ← decls.settle
  if ← look (·.isAt .eof) then return decls.getD []
  else
    record [← look (·.unexpected "end of file")]
    return decls.getD []

end PartialParser

namespace Parser

/-- The parser with plain repetitions for a production, when `levels` are left. -/
def Production.partialParser (options : Options) :
    {α : Type} → Nat → Production α → PartialParser α
  | _, levels, file => PartialParser.file (PartialParser.inner options levels).decls
  | _, levels, block item => PartialParser.deeper options.maxNesting levels fun levels =>
    PartialParser.block (item.partialParser options levels)
  | _, levels, declaration => (PartialParser.inner options levels).declaration options
  | _, levels, dataType => (PartialParser.inner options levels).dataType
  | _, levels, constructorSignature => (PartialParser.inner options levels).constructorSignature
  | _, levels, recordType => (PartialParser.inner options levels).recordType
  | _, levels, member => (PartialParser.inner options levels).member options
  | _, levels, moduleBlock => (PartialParser.inner options levels).moduleBlock
  | _, _, importModule => PartialParser.importModule
  | _, _, fixityDeclaration assoc => PartialParser.fixityDeclaration options assoc
  | _, levels, signatureOrClause => (PartialParser.inner options levels).signatureOrClause
  | _, levels, ascription => (PartialParser.inner options levels).ascription
  | _, levels, clause => (PartialParser.inner options levels).clause
  | _, levels, header expected => (PartialParser.inner options levels).header expected
  | _, levels, signature start expected context =>
    (PartialParser.inner options levels).signature start expected context
  | _, levels, params => (PartialParser.inner options levels).params
  | _, levels, param => (PartialParser.inner options levels).param
  | _, levels, expr => (PartialParser.inner options levels).expr
  | _, levels, expression => (PartialParser.inner options levels).expression
  | _, levels, bind binder expected => (PartialParser.inner options levels).bind binder expected
  | _, levels, bindings expected => (PartialParser.inner options levels).bindings expected
  | _, levels, binding expected => (PartialParser.inner options levels).binding expected
  | _, levels, letIn => (PartialParser.inner options levels).letIn
  | _, levels, runOrArrow => (PartialParser.inner options levels).runOrArrow
  | _, levels, run => (PartialParser.inner options levels).run
  | _, levels, atom => (PartialParser.inner options levels).atom
  | _, levels, paren => (PartialParser.inner options levels).paren
  | _, levels, recordValue => (PartialParser.inner options levels).recordValue
  | _, levels, assignments => (PartialParser.inner options levels).assignments
  | _, levels, assignment => (PartialParser.inner options levels).assignment
  | _, _, qualifiedName expected => PartialParser.qualifiedName expected
  | _, _, names expected => PartialParser.names expected
  | _, _, boundName expected => liftM (Parser.boundName expected)
  | _, _, name expected => liftM (Parser.name expected)

end Parser

end Offside
