-- SUMMARY: Resolution as a traversal that opens scopes and levels in its state and closes them again.
import Offside.Fixity.Resolve
import Offside.Proofs.Report.Traversal

/-! # Resolution with a state

`resolveExpr` and its companions are given the table and the levels that are
left. The same work can be done with one table and one depth that change on the
way: a scope is opened before a block and closed after it, and the depth goes up
before an expression and down after it. However a part ends, both are then what
they were, and all that is left of it are its problems: `Part.resolves_walk`. -/

namespace Offside

namespace Fixity

open Traversal (nested raise look)

variable {α : Type}

/-- Run `body` while the fixities of `decls` are in scope. -/
def withScope (decls : List (Decl Concrete.Expr)) (body : Traversal Table α) :
    Traversal Table α := fun s =>
  let (table, ds) := s.focus.enter decls
  let (result, s₁) := body { s with focus := table, diagnostics := s.diagnostics ++ ds }
  (result, { s₁ with focus := s₁.focus.exit })

/-- The expression that the pieces of a run mean, with the levels left now. -/
def walkPieces (limit : Nat) (span : Span) (pieces : List Piece) : Traversal Table Expr := do
  let depth ← look (·.depth)
  raise (do (← Queues.ofPieces pieces).group (limit - depth) span)

mutual

/-- Resolve an expression. -/
def walkExpr (limit : Nat) : Concrete.Expr → Traversal Table Expr
  | .run span atoms => nested limit (fun _ => span) do
    walkPieces limit span (← walkAtoms limit atoms)
  | .arrow span domain codomain => nested limit (fun _ => span) do
    if domain.any isParam then
      match domain.find? (!isParam ·) with
      | some culprit => raise (.error (Problem.mixedDomain.at culprit.span))
      | none => do
        let params ← walkDomain limit domain
        return .pi span params (← walkExpr limit codomain)
    else do
      let pieces ← walkAtoms limit domain
      let domain ← walkPieces limit (runSpan span domain) pieces
      return .arrow span domain (← walkExpr limit codomain)
  | .bind span binder bindings body => nested limit (fun _ => span) do
    let bindings ← walkBindings limit bindings
    return .bind span binder bindings (← walkExpr limit body)
  | .letIn span decls body => nested limit (fun _ => span) <| withScope decls do
    let decls ← walkDecls limit decls
    return .letIn span decls (← walkExpr limit body)

/-- Resolve the atoms of a run. -/
def walkAtoms (limit : Nat) : List Concrete.Atom → Traversal Table (List Piece)
  | [] => pure []
  | atom :: atoms => do
    let table ← look (·.focus)
    let piece ← match operator? table atom with
      | some operator => pure (.operator operator)
      | none => Piece.operand <$> walkAtom limit atom
    return piece :: (← walkAtoms limit atoms)

/-- Resolve an atom that is an operand. -/
def walkAtom (limit : Nat) : Concrete.Atom → Traversal Table Expr
  | .leaf l => pure (.leaf l)
  | .paren span e => return .paren span (← walkExpr limit e)
  | .param p => raise (.error (Problem.strayParam.at p.span))
  | .record span builder fields => return .record span builder (← walkAssignments limit fields)
  | .tail e => walkExpr limit e

/-- Resolve the assignments of a record value. -/
def walkAssignments (limit : Nat) :
    List (Assignment Concrete.Expr) → Traversal Table (List (Assignment Expr))
  | [] => pure []
  | ⟨span, name, value⟩ :: fields => do
    let value ← walkExpr limit value
    return ⟨span, name, value⟩ :: (← walkAssignments limit fields)

/-- Resolve the typed parameters before an arrow. -/
def walkDomain (limit : Nat) : List Concrete.Atom → Traversal Table (List (Param Expr))
  | [] => pure []
  | .param p :: atoms => do
    let p ← walkParam limit p
    return p :: (← walkDomain limit atoms)
  | _ :: atoms => walkDomain limit atoms

/-- Resolve a typed parameter. -/
def walkParam (limit : Nat) : Param Concrete.Expr → Traversal Table (Param Expr)
  | ⟨span, isImplicit, names, type⟩ => return ⟨span, isImplicit, names, ← walkExpr limit type⟩

/-- Resolve the typed parameters of a header. -/
def walkParams (limit : Nat) : List (Param Concrete.Expr) → Traversal Table (List (Param Expr))
  | [] => pure []
  | p :: ps => do
    let p ← walkParam limit p
    return p :: (← walkParams limit ps)

/-- Resolve the bindings of a lambda or quantifier. -/
def walkBindings (limit : Nat) :
    List (Binding Concrete.Expr) → Traversal Table (List (Binding Expr))
  | [] => pure []
  | .name n :: bs => return .name n :: (← walkBindings limit bs)
  | .typed p :: bs => do
    let p ← walkParam limit p
    return .typed p :: (← walkBindings limit bs)

/-- Resolve an expression that may be missing. -/
def walkOption (limit : Nat) : Option Concrete.Expr → Traversal Table (Option Expr)
  | none => pure none
  | some e => some <$> walkExpr limit e

/-- Resolve constructors or fields. -/
def walkSignatures (limit : Nat) :
    List (Signature Concrete.Expr) → Traversal Table (List (Signature Expr))
  | [] => pure []
  | ⟨span, names, type⟩ :: ss => do
    let type ← walkExpr limit type
    return ⟨span, names, type⟩ :: (← walkSignatures limit ss)

/-- Resolve a header. -/
def walkHeader (limit : Nat) : Header Concrete.Expr → Traversal Table (Header Expr)
  | ⟨name, params, type⟩ => do
    let params ← walkParams limit params
    return ⟨name, params, ← walkOption limit type⟩

/-- Resolve patterns. -/
def walkPatterns (limit : Nat) : List Concrete.Expr → Traversal Table (List Expr)
  | [] => pure []
  | p :: ps => do
    let p ← walkExpr limit p
    raise (ensurePattern p)
    return p :: (← walkPatterns limit ps)

/-- Resolve a declaration. What fails in the scope of a record or a clause fails
once that scope is closed. -/
def walkDecl (limit : Nat) : Decl Concrete.Expr → Traversal Table (Decl Expr)
  | .dataType span header constructors => do
    let header ← walkHeader limit header
    return .dataType span header (← walkSignatures limit constructors)
  | .emptyData span header => return .emptyData span (← walkHeader limit header)
  | .recordType span header builder fields decls => do
    let header ← walkHeader limit header
    let inside ← withScope decls do
      let decls ← walkDecls limit decls
      return (decls, ← (walkSignatures limit fields).attempt)
    return .recordType span header builder (← raise inside.2) inside.1
  | .moduleBlock span name params decls => do
    let params ← walkParams limit params
    return .moduleBlock span name params (← withScope decls (walkDecls limit decls))
  | .importModule span kind name => return .importModule span kind name
  | .ascription ⟨span, names, type⟩ => return .ascription ⟨span, names, ← walkExpr limit type⟩
  | .clause span patterns _ withPatterns withExpr rhs locals => do
    let sides := (← walkPatterns limit patterns).map leftHandSide
    let withPatterns ← walkPatterns limit withPatterns
    let inside ← withScope locals do
      let locals ← walkDecls limit locals
      let withExpr ← (walkOption limit withExpr).attempt
      return (locals, withExpr, ← (walkOption limit rhs).attempt)
    return .clause span (sides.flatMap (·.1)) (sides.any (·.2)) withPatterns
      (← raise inside.2.1) (← raise inside.2.2) inside.1
  | .fixity span fixity operators => return .fixity span fixity operators

/-- Resolve the declarations of a block whose scope is open. One that fails is
recorded and left out. -/
def walkDecls (limit : Nat) : List (Decl Concrete.Expr) → Traversal Table (List (Decl Expr))
  | [] => pure []
  | decl :: decls => do
    let first ← (walkDecl limit decl).settle
    return first.toList ++ (← walkDecls limit decls)

end

/-! ## Reports -/

/-- The traversal amounts to the report `r`, and the table is what it was. -/
abbrev Resolves (w : Traversal Table α) (depth : Nat) (table : Table) (r : Report α) : Prop :=
  w.Reports depth table r table

section

variable {β : Type} {w : Traversal Table α} {limit depth : Nat} {table : Table} {r : Report α}

theorem Resolves.bind {next : α → Traversal Table β} {f : α → Report β}
    (h : Resolves w depth table r) (hnext : ∀ a, Resolves (next a) depth table (f a)) :
    Resolves (w >>= next) depth table (r >>= f) :=
  Traversal.Reports.bind h (fun a _ => hnext a) (fun _ _ => rfl)

theorem Resolves.map {f : α → β} (h : Resolves w depth table r) :
    Resolves (f <$> w) depth table (f <$> r) :=
  h.bind fun _ => .pure _

/-- The levels left are those between the depth and the limit. -/
theorem Resolves.nested {span : Span} {body : Nat → Report α}
    (h : Resolves w (depth + 1) table (body (limit - (depth + 1)))) :
    Resolves (nested limit (fun _ => span) w) depth table
      (deeper limit (limit - depth) span body) := by
  by_cases hle : limit ≤ depth
  · rw [Nat.sub_eq_zero_of_le hle]
    exact .nested_stop hle
  · have hlevels : limit - depth = limit - (depth + 1) + 1 := by omega
    rw [hlevels]
    exact .nested_run (Nat.not_le.1 hle) h

/-- The scope of a block is gone after it. -/
theorem Resolves.withScope {decls : List (Decl Concrete.Expr)}
    (h : Resolves w depth (table.enter decls).1 r) :
    Resolves (withScope decls w) depth table (.noted (table.enter decls) >>= fun _ => r) := by
  intro ds
  have hbody := h (ds ++ (table.enter decls).2)
  simp only [Fixity.withScope, hbody]
  simp [Bind.bind, Report.andThen, Report.noted]

theorem resolves_walkPieces (span : Span) (pieces : List Piece) :
    Resolves (walkPieces limit span pieces) depth table
      (groupPieces (limit - depth) span pieces) :=
  .look fun _ => .raise _

end

mutual

theorem resolves_walkExpr (limit : Nat) : ∀ e depth table,
    Resolves (walkExpr limit e) depth table (resolveExpr limit table (limit - depth) e)
  | .run span atoms, depth, table => by
    rw [walkExpr, resolveExpr]
    refine .nested ?_
    exact (resolves_walkAtoms limit atoms _ table).bind fun pieces => resolves_walkPieces span pieces
  | .arrow span domain codomain, depth, table => by
    rw [walkExpr, resolveExpr]
    refine .nested ?_
    split
    · cases domain.find? (!isParam ·) with
      | some culprit => exact .raise _
      | none =>
        refine (resolves_walkDomain limit domain _ table).bind fun params => ?_
        exact (resolves_walkExpr limit codomain _ table).bind fun _ => .pure _
    · refine (resolves_walkAtoms limit domain _ table).bind fun pieces => ?_
      refine (resolves_walkPieces _ pieces).bind fun domain => ?_
      exact (resolves_walkExpr limit codomain _ table).bind fun _ => .pure _
  | .bind span binder bindings body, depth, table => by
    rw [walkExpr, resolveExpr]
    refine .nested ?_
    refine (resolves_walkBindings limit bindings _ table).bind fun bindings => ?_
    exact (resolves_walkExpr limit body _ table).bind fun _ => .pure _
  | .letIn span decls body, depth, table => by
    rw [walkExpr, resolveExpr]
    refine .nested (.withScope ?_)
    refine (resolves_walkDecls limit decls _ _).bind fun decls => ?_
    exact (resolves_walkExpr limit body _ _).bind fun _ => .pure _

theorem resolves_walkAtoms (limit : Nat) : ∀ atoms depth table,
    Resolves (walkAtoms limit atoms) depth table (resolveAtoms limit table (limit - depth) atoms)
  | [], depth, table => by
    rw [walkAtoms, resolveAtoms]
    exact .pure _
  | atom :: atoms, depth, table => by
    rw [walkAtoms, resolveAtoms]
    have hrest := fun piece => (resolves_walkAtoms limit atoms depth table).bind
      fun pieces => .pure (piece :: pieces)
    refine .look fun _ => ?_
    dsimp only
    cases operator? table atom with
    | some operator => exact Resolves.bind (.pure _) hrest
    | none => exact (resolves_walkAtom limit atom depth table).map.bind hrest

theorem resolves_walkAtom (limit : Nat) : ∀ atom depth table,
    Resolves (walkAtom limit atom) depth table (resolveAtom limit table (limit - depth) atom)
  | .leaf l, depth, table => by
    rw [walkAtom, resolveAtom]
    exact .pure _
  | .paren span e, depth, table => by
    rw [walkAtom, resolveAtom]
    exact (resolves_walkExpr limit e depth table).bind fun _ => .pure _
  | .param p, depth, table => by
    rw [walkAtom, resolveAtom]
    exact .raise _
  | .record span builder fields, depth, table => by
    rw [walkAtom, resolveAtom]
    exact (resolves_walkAssignments limit fields depth table).bind fun _ => .pure _
  | .tail e, depth, table => by
    rw [walkAtom, resolveAtom]
    exact resolves_walkExpr limit e depth table

theorem resolves_walkAssignments (limit : Nat) : ∀ fields depth table,
    Resolves (walkAssignments limit fields) depth table
      (resolveAssignments limit table (limit - depth) fields)
  | [], depth, table => by
    rw [walkAssignments, resolveAssignments]
    exact .pure _
  | ⟨span, name, value⟩ :: fields, depth, table => by
    rw [walkAssignments, resolveAssignments]
    refine (resolves_walkExpr limit value depth table).bind fun value => ?_
    exact (resolves_walkAssignments limit fields depth table).bind fun _ => .pure _

theorem resolves_walkDomain (limit : Nat) : ∀ atoms depth table,
    Resolves (walkDomain limit atoms) depth table (resolveDomain limit table (limit - depth) atoms)
  | [], depth, table => by
    rw [walkDomain, resolveDomain]
    exact .pure _
  | .param p :: atoms, depth, table => by
    rw [walkDomain, resolveDomain]
    refine (resolves_walkParam limit p depth table).bind fun p => ?_
    exact (resolves_walkDomain limit atoms depth table).bind fun _ => .pure _
  | .leaf _ :: atoms, depth, table | .paren .. :: atoms, depth, table
  | .record .. :: atoms, depth, table | .tail _ :: atoms, depth, table => by
    simp only [walkDomain, resolveDomain]
    exact resolves_walkDomain limit atoms depth table

theorem resolves_walkParam (limit : Nat) : ∀ p depth table,
    Resolves (walkParam limit p) depth table (resolveParam limit table (limit - depth) p)
  | ⟨span, isImplicit, names, type⟩, depth, table => by
    rw [walkParam, resolveParam]
    exact (resolves_walkExpr limit type depth table).bind fun _ => .pure _

theorem resolves_walkParams (limit : Nat) : ∀ ps depth table,
    Resolves (walkParams limit ps) depth table (resolveParams limit table (limit - depth) ps)
  | [], depth, table => by
    rw [walkParams, resolveParams]
    exact .pure _
  | p :: ps, depth, table => by
    rw [walkParams, resolveParams]
    refine (resolves_walkParam limit p depth table).bind fun p => ?_
    exact (resolves_walkParams limit ps depth table).bind fun _ => .pure _

theorem resolves_walkBindings (limit : Nat) : ∀ bs depth table,
    Resolves (walkBindings limit bs) depth table (resolveBindings limit table (limit - depth) bs)
  | [], depth, table => by
    rw [walkBindings, resolveBindings]
    exact .pure _
  | .name n :: bs, depth, table => by
    rw [walkBindings, resolveBindings]
    exact (resolves_walkBindings limit bs depth table).bind fun _ => .pure _
  | .typed p :: bs, depth, table => by
    rw [walkBindings, resolveBindings]
    refine (resolves_walkParam limit p depth table).bind fun p => ?_
    exact (resolves_walkBindings limit bs depth table).bind fun _ => .pure _

theorem resolves_walkOption (limit : Nat) : ∀ o depth table,
    Resolves (walkOption limit o) depth table (resolveOption limit table (limit - depth) o)
  | none, depth, table => by
    rw [walkOption, resolveOption]
    exact .pure _
  | some e, depth, table => by
    rw [walkOption, resolveOption]
    exact (resolves_walkExpr limit e depth table).map

theorem resolves_walkSignatures (limit : Nat) : ∀ gs depth table,
    Resolves (walkSignatures limit gs) depth table
      (resolveSignatures limit table (limit - depth) gs)
  | [], depth, table => by
    rw [walkSignatures, resolveSignatures]
    exact .pure _
  | ⟨span, names, type⟩ :: gs, depth, table => by
    rw [walkSignatures, resolveSignatures]
    refine (resolves_walkExpr limit type depth table).bind fun type => ?_
    exact (resolves_walkSignatures limit gs depth table).bind fun _ => .pure _

theorem resolves_walkHeader (limit : Nat) : ∀ header depth table,
    Resolves (walkHeader limit header) depth table
      (resolveHeader limit table (limit - depth) header)
  | ⟨name, params, type⟩, depth, table => by
    rw [walkHeader, resolveHeader]
    refine (resolves_walkParams limit params depth table).bind fun params => ?_
    exact (resolves_walkOption limit type depth table).bind fun _ => .pure _

theorem resolves_walkPatterns (limit : Nat) : ∀ es depth table,
    Resolves (walkPatterns limit es) depth table (resolvePatterns limit table (limit - depth) es)
  | [], depth, table => by
    rw [walkPatterns, resolvePatterns]
    exact .pure _
  | e :: es, depth, table => by
    rw [walkPatterns, resolvePatterns]
    refine (resolves_walkExpr limit e depth table).bind fun p => ?_
    refine Resolves.bind (.raise _) fun _ => ?_
    exact (resolves_walkPatterns limit es depth table).bind fun _ => .pure _

theorem resolves_walkDecl (limit : Nat) : ∀ d depth table,
    Resolves (walkDecl limit d) depth table (resolveDecl limit table (limit - depth) d)
  | .dataType span header constructors, depth, table => by
    rw [walkDecl, resolveDecl]
    refine (resolves_walkHeader limit header depth table).bind fun header => ?_
    exact (resolves_walkSignatures limit constructors depth table).bind fun _ => .pure _
  | .emptyData span header, depth, table => by
    rw [walkDecl, resolveDecl]
    exact (resolves_walkHeader limit header depth table).bind fun _ => .pure _
  | .recordType span header builder fields decls, depth, table => by
    rw [walkDecl, resolveDecl]
    refine (resolves_walkHeader limit header depth table).bind fun header => ?_
    -- A field that fails is raised when the scope is closed, with the same report.
    have hinside := (resolves_walkDecls limit decls depth (table.enter decls).1).bind fun decls =>
      Resolves.bind (.attempt (resolves_walkSignatures limit fields depth _)) fun fields =>
        .pure (decls, fields)
    refine Traversal.Reports.of_eq (hinside.withScope.bind fun inside => Resolves.bind (.raise _) fun _ =>
      .pure _) ?_
    simp only [bind_assoc, pure_bind, Report.defer_bind_raise]
    rfl
  | .moduleBlock span name params decls, depth, table => by
    rw [walkDecl, resolveDecl]
    refine (resolves_walkParams limit params depth table).bind fun params => ?_
    refine Traversal.Reports.of_eq ((resolves_walkDecls limit decls depth _).withScope.bind fun _ =>
      .pure _) ?_
    simp only [bind_assoc]
    rfl
  | .importModule span kind name, depth, table => by
    rw [walkDecl, resolveDecl]
    exact .pure _
  | .ascription ⟨span, names, type⟩, depth, table => by
    rw [walkDecl, resolveDecl]
    exact (resolves_walkExpr limit type depth table).bind fun _ => .pure _
  | .clause span patterns isOperator withPatterns withExpr rhs locals, depth, table => by
    rw [walkDecl, resolveDecl]
    refine (resolves_walkPatterns limit patterns depth table).bind fun sides => ?_
    refine (resolves_walkPatterns limit withPatterns depth table).bind fun withPatterns => ?_
    have hinside := (resolves_walkDecls limit locals depth (table.enter locals).1).bind fun locals =>
      Resolves.bind (.attempt (resolves_walkOption limit withExpr depth _)) fun withExpr =>
        Resolves.bind (.attempt (resolves_walkOption limit rhs depth _)) fun rhs =>
          .pure (locals, withExpr, rhs)
    refine Traversal.Reports.of_eq (hinside.withScope.bind fun inside => Resolves.bind (.raise _) fun _ =>
      Resolves.bind (.raise _) fun _ => .pure _) ?_
    simp only [bind_assoc, pure_bind]
    rfl
  | .fixity span fixity operators, depth, table => by
    rw [walkDecl, resolveDecl]
    exact .pure _

theorem resolves_walkDecls (limit : Nat) : ∀ ds depth table,
    Resolves (walkDecls limit ds) depth table (.noted (resolveDecls limit table (limit - depth) ds))
  | [], depth, table => by
    rw [walkDecls, resolveDecls]
    exact .pure _
  | d :: ds, depth, table => by
    rw [walkDecls, resolveDecls]
    refine Traversal.Reports.of_eq (Resolves.bind (.settle (resolves_walkDecl limit d depth table))
      fun first => (resolves_walkDecls limit ds depth table).bind fun _ => .pure _) ?_
    simp [bind, Report.andThen, Report.noted]

end

/-! ## Parts of a file -/

/-- What can be resolved, with what it resolves to. -/
inductive Part : Type → Type
  | file (decls : List (Decl Concrete.Expr)) : Part (List (Decl Expr))
  | decls (decls : List (Decl Concrete.Expr)) : Part (List (Decl Expr))
  | decl (decl : Decl Concrete.Expr) : Part (Decl Expr)
  | patterns (exprs : List Concrete.Expr) : Part (List Expr)
  | header (header : Header Concrete.Expr) : Part (Header Expr)
  | signatures (signatures : List (Signature Concrete.Expr)) : Part (List (Signature Expr))
  | option (expr : Option Concrete.Expr) : Part (Option Expr)
  | bindings (bindings : List (Binding Concrete.Expr)) : Part (List (Binding Expr))
  | params (params : List (Param Concrete.Expr)) : Part (List (Param Expr))
  | param (param : Param Concrete.Expr) : Part (Param Expr)
  | domain (atoms : List Concrete.Atom) : Part (List (Param Expr))
  | assignments (fields : List (Assignment Concrete.Expr)) : Part (List (Assignment Expr))
  | atom (atom : Concrete.Atom) : Part Expr
  | run (span : Span) (atoms : List Concrete.Atom) : Part Expr
  | expr (expr : Concrete.Expr) : Part Expr
  | exprIn (context : List (Decl Concrete.Expr)) (expr : Concrete.Expr) : Part (Option Expr)

namespace Part

/-- Resolve a part in the table and at the depth of the state. -/
def walk (limit : Nat) : Part α → Traversal Table α
  | file ds => withScope ds (walkDecls limit ds)
  | decls ds => walkDecls limit ds
  | decl d => walkDecl limit d
  | patterns es => walkPatterns limit es
  | header h => walkHeader limit h
  | signatures gs => walkSignatures limit gs
  | option o => walkOption limit o
  | bindings bs => walkBindings limit bs
  | params ps => walkParams limit ps
  | param p => walkParam limit p
  | domain atoms => walkDomain limit atoms
  | assignments fields => walkAssignments limit fields
  | atom a => walkAtom limit a
  | run span atoms => do walkPieces limit span (← walkAtoms limit atoms)
  | expr e => walkExpr limit e
  | exprIn context e => (withScope context (walkExpr limit e)).settle

/-- What resolving a part reports, when the table and the levels left are given. -/
def report (limit : Nat) (table : Table) (levels : Nat) : Part α → Report α
  | file ds => do
    let table ← .noted (table.enter ds)
    .noted (resolveDecls limit table levels ds)
  | decls ds => .noted (resolveDecls limit table levels ds)
  | decl d => resolveDecl limit table levels d
  | patterns es => resolvePatterns limit table levels es
  | header h => resolveHeader limit table levels h
  | signatures gs => resolveSignatures limit table levels gs
  | option o => resolveOption limit table levels o
  | bindings bs => resolveBindings limit table levels bs
  | params ps => resolveParams limit table levels ps
  | param p => resolveParam limit table levels p
  | domain atoms => resolveDomain limit table levels atoms
  | assignments fields => resolveAssignments limit table levels fields
  | atom a => resolveAtom limit table levels a
  | run span atoms => do groupPieces levels span (← resolveAtoms limit table levels atoms)
  | expr e => resolveExpr limit table levels e
  | exprIn context e => do
    let table ← .noted (table.enter context)
    .noted (resolveExpr limit table levels e).settle

theorem resolves_walk (limit : Nat) (part : Part α) (depth : Nat) (table : Table) :
    Resolves (part.walk limit) depth table (part.report limit table (limit - depth)) := by
  cases part with
  | file decls => exact (resolves_walkDecls limit decls depth _).withScope
  | decls decls => exact resolves_walkDecls limit decls depth table
  | decl decl => exact resolves_walkDecl limit decl depth table
  | patterns exprs => exact resolves_walkPatterns limit exprs depth table
  | header header => exact resolves_walkHeader limit header depth table
  | signatures signatures => exact resolves_walkSignatures limit signatures depth table
  | option expr => exact resolves_walkOption limit expr depth table
  | bindings bindings => exact resolves_walkBindings limit bindings depth table
  | params params => exact resolves_walkParams limit params depth table
  | param param => exact resolves_walkParam limit param depth table
  | domain atoms => exact resolves_walkDomain limit atoms depth table
  | assignments fields => exact resolves_walkAssignments limit fields depth table
  | atom atom => exact resolves_walkAtom limit atom depth table
  | run span atoms =>
    exact (resolves_walkAtoms limit atoms depth table).bind fun pieces =>
      resolves_walkPieces span pieces
  | expr expr => exact resolves_walkExpr limit expr depth table
  | exprIn context expr =>
    have hexpr := (resolves_walkExpr limit expr depth (table.enter context).1).withScope
    refine Traversal.Reports.of_eq (.settle hexpr) ?_
    cases hr : resolveExpr limit (table.enter context).1 (limit - depth) expr with
    | mk ds result =>
      cases result <;>
        simp [report, hr, bind, Report.andThen, Report.noted, Report.settle]

/-- From the start, the report on a file is what `resolveFile` gives. -/
theorem report_file (limit : Nat) (decls : List (Decl Concrete.Expr)) :
    (file decls).report limit .empty limit = .noted (resolveFile limit decls) := rfl

end Part

end Fixity

end Offside
