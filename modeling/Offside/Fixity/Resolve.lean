-- SUMMARY: Resolution of concrete expressions and declarations into expressions with operators grouped.
import Offside.Concrete
import Offside.Fixity.Queues
import Offside.Report

/-! # Resolving operators

Resolution walks over declarations with the fixities in scope. A module, a
record, a `let` and the `where` block of a clause open a scope each. The scope
of a `where` block covers the right-hand side and the `with` expression of its
clause, and not its patterns; that of a module or record does not cover its
header. A declaration that does not resolve is recorded and left out. -/

namespace Offside

namespace Fixity

/-! ## Patterns -/

mutual

/-- A pattern holds no function type, binder or `let`, at any depth. -/
def ensurePattern : Expr → Except Diagnostic Unit
  | .leaf _ => .ok ()
  | .paren _ e => ensurePattern e
  | .record _ _ fields => ensurePatternFields fields
  | .app _ fn arg => do ensurePattern fn; ensurePattern arg
  | .operation _ _ left right => do ensurePattern left; ensurePattern right
  | .arrow span domain codomain => notAPattern (.arrow span domain codomain)
  | .pi span params codomain => notAPattern (.pi span params codomain)
  | .bind span binder bindings body => notAPattern (.bind span binder bindings body)
  | .letIn span decls body => notAPattern (.letIn span decls body)
where
  /-- The problem that `e` is no pattern. -/
  notAPattern (e : Expr) : Except Diagnostic Unit :=
    .error ((Problem.notAPattern e.phrase).at e.span)

/-- The same of the values of a record. -/
def ensurePatternFields : List (Assignment Expr) → Except Diagnostic Unit
  | [] => .ok ()
  | ⟨_, _, value⟩ :: fields => do ensurePattern value; ensurePatternFields fields

end

/-- The defined name and its patterns, of a left-hand side, and whether the
name is an operator between two patterns. -/
def leftHandSide : Expr → List Expr × Bool
  | .operation _ operator left right => ([.leaf (.name (.simple operator)), left, right], true)
  | e => (e.spine, false)

/-! ## Runs -/

/-- The operator that an atom is, if it is one. -/
def operator? (table : Table) : Concrete.Atom → Option Operator
  | .leaf (.name q) => do
    let name ← q.simple?
    let entry ← table.lookup? name.text
    return ⟨name, entry.fixity⟩
  | _ => none

/-- The span of the atoms of a run, or `span` if there are none. -/
def runSpan (span : Span) (atoms : List Concrete.Atom) : Span :=
  match atoms.head?, atoms.getLast? with
  | some first, some last => first.span.merge last.span
  | _, _ => span

/-- The expression that the pieces of a run mean. -/
def groupPieces (budget : Nat) (span : Span) (pieces : List Piece) : Report Expr :=
  .raise (do (← Queues.ofPieces pieces).group budget span)

/-- Whether an atom is a typed parameter. -/
def isParam : Concrete.Atom → Bool
  | .param _ => true
  | _ => false

/-! ## Expressions and declarations

`limit` is the greatest depth at which expressions may nest, and `levels` is
how much of it is left. -/

/-- Go one level deeper into the expression at `span`. -/
def deeper {α : Type} (limit levels : Nat) (span : Span) (body : Nat → Report α) : Report α :=
  match levels with
  | 0 => .fail ((Problem.nestingTooDeep limit).at span)
  | levels + 1 => body levels

mutual

/-- Resolve an expression. -/
def resolveExpr (limit : Nat) (table : Table) (levels : Nat) : Concrete.Expr → Report Expr
  | .run span atoms => deeper limit levels span fun levels => do
    groupPieces levels span (← resolveAtoms limit table levels atoms)
  | .arrow span domain codomain => deeper limit levels span fun levels =>
    if domain.any isParam then
      match domain.find? (!isParam ·) with
      | some culprit => .fail (Problem.mixedDomain.at culprit.span)
      | none => do
        let params ← resolveDomain limit table levels domain
        return .pi span params (← resolveExpr limit table levels codomain)
    else do
      let pieces ← resolveAtoms limit table levels domain
      let domain ← groupPieces levels (runSpan span domain) pieces
      return .arrow span domain (← resolveExpr limit table levels codomain)
  | .bind span binder bindings body => deeper limit levels span fun levels => do
    let bindings ← resolveBindings limit table levels bindings
    return .bind span binder bindings (← resolveExpr limit table levels body)
  | .letIn span decls body => deeper limit levels span fun levels => do
    let table ← .noted (table.enter decls)
    let decls ← .noted (resolveDecls limit table levels decls)
    return .letIn span decls (← resolveExpr limit table levels body)

/-- Resolve the atoms of a run. Names with a fixity become operators. -/
def resolveAtoms (limit : Nat) (table : Table) (levels : Nat) :
    List Concrete.Atom → Report (List Piece)
  | [] => pure []
  | atom :: atoms => do
    let piece ← match operator? table atom with
      | some operator => pure (.operator operator)
      | none => Piece.operand <$> resolveAtom limit table levels atom
    return piece :: (← resolveAtoms limit table levels atoms)

/-- Resolve an atom that is an operand. -/
def resolveAtom (limit : Nat) (table : Table) (levels : Nat) : Concrete.Atom → Report Expr
  | .leaf l => pure (.leaf l)
  | .paren span e => return .paren span (← resolveExpr limit table levels e)
  | .param p => .fail (Problem.strayParam.at p.span)
  | .record span builder fields =>
    return .record span builder (← resolveAssignments limit table levels fields)
  | .tail e => resolveExpr limit table levels e

/-- Resolve the assignments of a record value. -/
def resolveAssignments (limit : Nat) (table : Table) (levels : Nat) :
    List (Assignment Concrete.Expr) → Report (List (Assignment Expr))
  | [] => pure []
  | ⟨span, name, value⟩ :: fields => do
    let value ← resolveExpr limit table levels value
    return ⟨span, name, value⟩ :: (← resolveAssignments limit table levels fields)

/-- Resolve the typed parameters before an arrow. -/
def resolveDomain (limit : Nat) (table : Table) (levels : Nat) :
    List Concrete.Atom → Report (List (Param Expr))
  | [] => pure []
  | .param p :: atoms => do
    let p ← resolveParam limit table levels p
    return p :: (← resolveDomain limit table levels atoms)
  | _ :: atoms => resolveDomain limit table levels atoms

/-- Resolve a typed parameter. -/
def resolveParam (limit : Nat) (table : Table) (levels : Nat) :
    Param Concrete.Expr → Report (Param Expr)
  | ⟨span, isImplicit, names, type⟩ =>
    return ⟨span, isImplicit, names, ← resolveExpr limit table levels type⟩

/-- Resolve the typed parameters of a header. -/
def resolveParams (limit : Nat) (table : Table) (levels : Nat) :
    List (Param Concrete.Expr) → Report (List (Param Expr))
  | [] => pure []
  | p :: ps => do
    let p ← resolveParam limit table levels p
    return p :: (← resolveParams limit table levels ps)

/-- Resolve the bindings of a lambda or quantifier. -/
def resolveBindings (limit : Nat) (table : Table) (levels : Nat) :
    List (Binding Concrete.Expr) → Report (List (Binding Expr))
  | [] => pure []
  | .name n :: bs => return .name n :: (← resolveBindings limit table levels bs)
  | .typed p :: bs => do
    let p ← resolveParam limit table levels p
    return .typed p :: (← resolveBindings limit table levels bs)

/-- Resolve an expression that may be missing. -/
def resolveOption (limit : Nat) (table : Table) (levels : Nat) :
    Option Concrete.Expr → Report (Option Expr)
  | none => pure none
  | some e => some <$> resolveExpr limit table levels e

/-- Resolve constructors or fields. -/
def resolveSignatures (limit : Nat) (table : Table) (levels : Nat) :
    List (Signature Concrete.Expr) → Report (List (Signature Expr))
  | [] => pure []
  | ⟨span, names, type⟩ :: ss => do
    let type ← resolveExpr limit table levels type
    return ⟨span, names, type⟩ :: (← resolveSignatures limit table levels ss)

/-- Resolve a header. -/
def resolveHeader (limit : Nat) (table : Table) (levels : Nat) :
    Header Concrete.Expr → Report (Header Expr)
  | ⟨name, params, type⟩ => do
    let params ← resolveParams limit table levels params
    return ⟨name, params, ← resolveOption limit table levels type⟩

/-- Resolve patterns. -/
def resolvePatterns (limit : Nat) (table : Table) (levels : Nat) :
    List Concrete.Expr → Report (List Expr)
  | [] => pure []
  | p :: ps => do
    let p ← resolveExpr limit table levels p
    .raise (ensurePattern p)
    return p :: (← resolvePatterns limit table levels ps)

/-- Resolve a declaration. -/
def resolveDecl (limit : Nat) (table : Table) (levels : Nat) :
    Decl Concrete.Expr → Report (Decl Expr)
  | .dataType span header constructors => do
    let header ← resolveHeader limit table levels header
    return .dataType span header (← resolveSignatures limit table levels constructors)
  | .emptyData span header => return .emptyData span (← resolveHeader limit table levels header)
  | .recordType span header builder fields decls => do
    let header ← resolveHeader limit table levels header
    let table ← .noted (table.enter decls)
    let decls ← .noted (resolveDecls limit table levels decls)
    let fields ← resolveSignatures limit table levels fields
    return .recordType span header builder fields decls
  | .moduleBlock span name params decls => do
    let params ← resolveParams limit table levels params
    let table ← .noted (table.enter decls)
    return .moduleBlock span name params (← .noted (resolveDecls limit table levels decls))
  | .importModule span kind name => return .importModule span kind name
  | .ascription ⟨span, names, type⟩ =>
    return .ascription ⟨span, names, ← resolveExpr limit table levels type⟩
  | .clause span patterns _ withPatterns withExpr rhs locals => do
    let sides := (← resolvePatterns limit table levels patterns).map leftHandSide
    let withPatterns ← resolvePatterns limit table levels withPatterns
    let table ← .noted (table.enter locals)
    let locals ← .noted (resolveDecls limit table levels locals)
    let withExpr ← (resolveOption limit table levels withExpr).defer
    let rhs ← (resolveOption limit table levels rhs).defer
    return .clause span (sides.flatMap (·.1)) (sides.any (·.2)) withPatterns
      (← .raise withExpr) (← .raise rhs) locals
  | .fixity span fixity operators => return .fixity span fixity operators

/-- Resolve the declarations of a block whose scope is open. -/
def resolveDecls (limit : Nat) (table : Table) (levels : Nat) :
    List (Decl Concrete.Expr) → List (Decl Expr) × List Diagnostic
  | [] => ([], [])
  | decl :: decls =>
    let (first, ds₁) := (resolveDecl limit table levels decl).settle
    let (others, ds₂) := resolveDecls limit table levels decls
    (first.toList ++ others, ds₁ ++ ds₂)

end

/-- Resolve the declarations of a file, which are a scope of their own. -/
def resolveFile (limit : Nat) (decls : List (Decl Concrete.Expr)) :
    List (Decl Expr) × List Diagnostic :=
  let (table, ds₁) := Table.empty.enter decls
  let (resolved, ds₂) := resolveDecls limit table limit decls
  (resolved, ds₁ ++ ds₂)

/-- Resolve an expression in the scope of the declarations `context`. -/
def resolveIn (limit : Nat) (context : List (Decl Concrete.Expr)) (e : Concrete.Expr) :
    Option Expr × List Diagnostic :=
  let (table, ds₁) := Table.empty.enter context
  let (resolved, ds₂) := (resolveExpr limit table limit e).settle
  (resolved, ds₁ ++ ds₂)

end Fixity

end Offside
