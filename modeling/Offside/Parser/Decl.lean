-- SUMMARY: The grammar of declarations and files, and the bound on nesting.
import Offside.Options
import Offside.Parser.Expr

/-! # Parsing declarations

A declaration begins with its keyword. Without one it is a signature or a
clause, and the first colon, equals sign, `with` or bar in it decides which. -/

namespace Offside

namespace Parser

/-- A precedence level of at most `limit`. -/
def precedence (limit : Nat) : Parser Nat := do
  match ← look (·.token) with
  | .integer value =>
    let tok ← advance
    if value.toNat ≤ limit then return value.toNat
    else fail ((Problem.precedenceOutOfRange value.toNat limit).at tok.span)
  | _ => unexpected "a precedence level"

/-- `infixl 6 + -`, at the keyword. -/
def fixityDeclaration (options : Options) (assoc : Associativity) : Parser (Decl Concrete.Expr) := do
  let keyword ← advance
  let precedence ← precedence options.maxPrecedence
  let operators ← names "an operator name"
  return .fixity (← spanFrom keyword.span.start) ⟨assoc, precedence⟩ operators

/-- `import M`, `open M` or `open import M`, at the keyword. -/
def importModule : Parser (Decl Concrete.Expr) := do
  let keyword ← advance
  let kind ←
    if keyword.token = .kwOpen then
      if ← eat .kwImport then pure ImportKind.openImport else pure .openOnly
    else pure .importOnly
  let name ← qualifiedName "a module name"
  return .importModule (← spanFrom keyword.span.start) kind name

namespace Inner

variable (inner : Inner)

/-- The typed parameters of a header. -/
def params : Parser (List (Param Concrete.Expr)) := whileAt atBracket inner.param

/-- The header of a data or record type, after its keyword. -/
def header (expected : String) : Parser (Header Concrete.Expr) := do
  let name ← name expected
  let params ← inner.params
  let type ← optional .colon inner.expr
  return ⟨name, params, type⟩

/-- The names of a signature, a colon and a type. The span begins at `start`. -/
def signature (start : Nat) (expected context : String) : Parser (Signature Concrete.Expr) := do
  let names ← names expected
  expect .colon context
  let type ← inner.expr
  return ⟨← spanFrom start, names, type⟩

/-- A data type, at its keyword. -/
def dataType : Parser (Decl Concrete.Expr) := do
  let keyword ← advance
  let header ← inner.header "a name after `data`"
  if ← eat .kwWhere then
    let constructors ← inner.constructors
    return .dataType (← spanFrom keyword.span.start) header constructors
  else return .emptyData (← spanFrom keyword.span.start) header

/-- Constructors with their type. A bar may stand before them. -/
def constructorSignature : Parser (Signature Concrete.Expr) := do
  let start ← start
  let _ ← eat .pipe
  inner.signature start "a constructor name" "after constructor names"

/-- A record type, at its keyword. Of several constructors the first one
counts. -/
def recordType : Parser (Decl Concrete.Expr) := do
  let keyword ← advance
  let header ← inner.header "a name after `record`"
  expect .kwWhere "after record header"
  let members ← inner.members
  let builders := members.filterMap fun | .builder name => some name | _ => none
  let fields := members.filterMap fun | .field signature => some signature | _ => none
  let decls := members.filterMap fun | .decl decl => some decl | _ => none
  record (builders.tail.map fun name => Problem.secondConstructor.at name.span)
  return .recordType (← spanFrom keyword.span.start) header builders.head? fields decls

/-- A module, at its keyword. -/
def moduleBlock : Parser (Decl Concrete.Expr) := do
  let keyword ← advance
  let name ← qualifiedName "a module name"
  let params ← inner.params
  expect .kwWhere "after module header"
  let decls ← inner.decls
  return .moduleBlock (← spanFrom keyword.span.start) name params decls

/-- `f g : A`. -/
def ascription : Parser (Decl Concrete.Expr) := do
  let start ← start
  .ascription <$> inner.signature start "a name in type signature" "after names in type signature"

/-- A defining clause: a left-hand side, then `with` patterns after bars, a
`with` expression, a right-hand side and a `where` block, each optional, but
not both of `with` and right-hand side missing. -/
def clause : Parser (Decl Concrete.Expr) := do
  let start ← start
  let lhs ← inner.expr
  let withPatterns ← whileAt (·.isAt .pipe) (do let _ ← advance; inner.expr)
  let withExpr ← optional .kwWith inner.expr
  let rhs ← optional .equals inner.expr
  if withExpr.isNone && rhs.isNone then unexpected "`=` or `with` after clause patterns"
  else
    let locals ← optional .kwWhere inner.decls
    return .clause (← spanFrom start) [lhs] false withPatterns withExpr rhs (locals.getD [])

/-- A declaration without a keyword. -/
def signatureOrClause : Parser (Decl Concrete.Expr) := do
  match ← look (·.firstInItem? [.colon, .equals, .kwWith, .pipe]) with
  | some .colon => inner.ascription
  | some _ => inner.clause
  | none => failHere (.neitherSignatureNorClause (← look (·.token)))

/-- A declaration. -/
def declaration (options : Options) : Parser (Decl Concrete.Expr) := do
  match ← look (·.token) with
  | .kwData => inner.dataType
  | .kwRecord => inner.recordType
  | .kwModule => inner.moduleBlock
  | .kwImport | .kwOpen => importModule
  | .kwFixity assoc => fixityDeclaration options assoc
  | .kwField => failHere (.memberOutsideRecord .kwField)
  | .kwConstructor => failHere (.memberOutsideRecord .kwConstructor)
  | _ => inner.signatureOrClause

/-- A member of a record type. -/
def member (options : Options) : Parser Member := do
  match ← look (·.token) with
  | .kwConstructor =>
    let _ ← advance
    .builder <$> name "a constructor name"
  | .kwField =>
    let keyword ← advance
    .field <$> inner.signature keyword.span.start "a field name" "after field names"
  | _ => .decl <$> inner.declaration options

end Inner

/-! ## Nesting -/

/-- The parsers for what may nest `levels` deep and no deeper. -/
def inner (options : Options) : (levels : Nat) → Inner
  | 0 =>
    let tooDeep := Problem.nestingTooDeep options.maxNesting
    ⟨failHere tooDeep, failHere tooDeep, failHere tooDeep, failHere tooDeep⟩
  | levels + 1 =>
    { expr := fun c => (inner options levels).expression c
      decls := fun c => block ((inner options levels).declaration options) c
      constructors := fun c => block (inner options levels).constructorSignature c
      members := fun c => block ((inner options levels).member options) c }

/-- A block of expressions that may nest `levels` deep. -/
def expressions (options : Options) : (levels : Nat) → Parser (List Concrete.Expr)
  | 0 => failHere (.nestingTooDeep options.maxNesting)
  | levels + 1 => block (inner options levels).expr

/-- The declarations of a whole file and the problems in it. -/
def file (options : Options) (c : Cursor) : List (Decl Concrete.Expr) × List Diagnostic :=
  let (r, c₁) := (inner options options.maxNesting).decls c
  let (decls, ds) := r.settle
  let leftover := if c₁.isAt .eof then [] else [c₁.unexpected "end of file"]
  (decls.getD [], ds ++ leftover)

end Parser

end Offside
