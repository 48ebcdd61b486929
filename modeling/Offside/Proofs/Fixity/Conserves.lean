-- SUMMARY: Resolving operators keeps the writing of a tree.
import Offside.Proofs.Expr.Written
import Offside.Proofs.Fixity.Resolution

/-! # Resolution keeps the writing

Operators are grouped, and the left-hand sides of clauses are taken apart, but
what resolves without a problem is written as before, in every style. -/

namespace Offside

namespace Fixity

open Concrete (exprTokens exprsTokens_eq atomTokens paramTokens paramsTokens bindingsTokens
  assignmentsTokens optionTokens signaturesTokens headerTokens declTokens declsTokens)

section

variable {s : Style}

/-! ## Runs -/

variable (s) in
/-- A member of a run in writing. -/
def Piece.tokens : Piece → List Token
  | .operand e => e.tokens s
  | .operator op => [op.name.token]

theorem Grouped.tokens {pieces : List Piece} {e : Expr} (h : Grouped pieces e) :
    e.tokens s = pieces.flatMap (Piece.tokens s) := by
  induction h with
  | operand e => simp [Piece.tokens]
  | apply arg _ _ ih => rw [Expr.apply, Expr.tokens, ih, List.flatMap_append]; simp [Piece.tokens]
  | operate op _ _ ih₁ ih₂ =>
    rw [Expr.operate, Expr.tokens, ih₁, ih₂, List.flatMap_append, List.flatMap_cons]
    rfl

variable (s) in
/-- What the expression resolves to is written as the expression is. -/
def KeepsExpr (e : Concrete.Expr) (r : Expr) : Prop := r.tokens s = exprTokens s e

variable (s) in
/-- The same of an atom. -/
def KeepsAtom (a : Concrete.Atom) (r : Expr) : Prop := r.tokens s = atomTokens s a

variable (s) in
/-- The same of a declaration, which keeps its place too. -/
def KeepsDecl (d : Decl Concrete.Expr) (r : Decl Expr) : Prop :=
  r.span = d.span ∧ ∀ outer, writeDecl outer s r = declTokens outer s d

theorem tokens_pieces {atoms : List Concrete.Atom} {pieces : List Piece}
    (h : List.Forall₂ (PieceOf (KeepsAtom s)) atoms pieces) :
    pieces.flatMap (Piece.tokens s) = atoms.flatMap (atomTokens s) := by
  induction h with
  | nil => rfl
  | cons hpiece _ ih =>
    rw [List.flatMap_cons, List.flatMap_cons, ih]
    cases hpiece with
    | operand atom => rw [Piece.tokens, atom]
    | operator span op => rfl

/-! ## Parts -/

theorem writeAssignments_of_rel {fields : List (Assignment Concrete.Expr)}
    {rs : List (Assignment Expr)} (h : List.Forall₂ (Assignment.Rel (KeepsExpr s)) fields rs) :
    writeAssignments s rs = assignmentsTokens s fields := by
  induction h with
  | nil => rfl
  | @cons f r fields rs hrel _ ih =>
    obtain ⟨span, name, value⟩ := f
    obtain ⟨span', name', value'⟩ := r
    obtain ⟨-, rfl, hvalue⟩ := hrel
    rw [writeAssignments, assignmentsTokens, ih, hvalue]

theorem writeParam_of_rel {p : Param Concrete.Expr} {q : Param Expr} (h : p.Rel (KeepsExpr s) q) :
    writeParam s q = paramTokens s p := by
  obtain ⟨span, isImplicit, names, type⟩ := p
  obtain ⟨span', isImplicit', names', type'⟩ := q
  obtain ⟨-, rfl, rfl, htype⟩ := h
  rw [writeParam, paramTokens, htype]

theorem writeParams_of_rel {ps : List (Param Concrete.Expr)} {qs : List (Param Expr)}
    (h : List.Forall₂ (Param.Rel (KeepsExpr s)) ps qs) : writeParams s qs = paramsTokens s ps := by
  induction h with
  | nil => rfl
  | cons hrel _ ih => rw [writeParams, paramsTokens, writeParam_of_rel hrel, ih]

theorem writeParams_of_domain {atoms : List Concrete.Atom} {qs : List (Param Expr)}
    (h : List.Forall₂ (DomainOf (KeepsExpr s)) atoms qs) :
    writeParams s qs = atoms.flatMap (atomTokens s) := by
  induction h with
  | nil => rfl
  | cons hdomain _ ih =>
    cases hdomain with
    | param hrel => rw [writeParams, List.flatMap_cons, atomTokens, writeParam_of_rel hrel, ih]

theorem writeBindings_of_rel {bs : List (Binding Concrete.Expr)} {rs : List (Binding Expr)}
    (h : List.Forall₂ (Binding.Rel (KeepsExpr s)) bs rs) :
    writeBindings s rs = bindingsTokens s bs := by
  induction h with
  | nil => rfl
  | cons hrel _ ih =>
    cases hrel with
    | name n => rw [writeBindings, bindingsTokens, ih]
    | typed hparam => rw [writeBindings, bindingsTokens, writeParam_of_rel hparam, ih]

theorem writeOption_of_rel {before : Token} {o : Option Concrete.Expr} {r : Option Expr}
    (h : Option.Rel (KeepsExpr s) o r) : writeOption s before r = optionTokens s before o := by
  cases h with
  | none => rfl
  | some hrel => rw [writeOption, optionTokens, hrel]

theorem writeSignatures_of_rel {gs : List (Signature Concrete.Expr)} {rs : List (Signature Expr)}
    (h : List.Forall₂ (Signature.Rel (KeepsExpr s)) gs rs) :
    rs.map (·.span.start) = gs.map (·.span.start) ∧
      writeSignatures s rs = signaturesTokens s gs := by
  induction h with
  | nil => exact ⟨rfl, rfl⟩
  | @cons g r gs rs hrel _ ih =>
    obtain ⟨span, names, type⟩ := g
    obtain ⟨span', names', type'⟩ := r
    obtain ⟨rfl, rfl, htype⟩ := hrel
    refine ⟨by rw [List.map_cons, List.map_cons, ih.1], ?_⟩
    rw [writeSignatures, signaturesTokens, htype, ih.2]

theorem writeHeader_of_rel {h : Header Concrete.Expr} {k : Header Expr}
    (hrel : h.Rel (KeepsExpr s) k) : writeHeader s k = headerTokens s h := by
  obtain ⟨name, params, type⟩ := h
  obtain ⟨name', params', type'⟩ := k
  obtain ⟨rfl, hparams, htype⟩ := hrel
  rw [writeHeader, headerTokens, writeParams_of_rel hparams, writeOption_of_rel htype]

theorem writeExprs_of_rel {es : List Concrete.Expr} {rs : List Expr}
    (h : List.Forall₂ (KeepsExpr s) es rs) : writeExprs s rs = es.map (exprTokens s) := by
  induction h with
  | nil => rfl
  | cons hrel _ ih => rw [writeExprs, List.map_cons, hrel, ih]

theorem writeDecls_of_rel {ds : List (Decl Concrete.Expr)} {rs : List (Decl Expr)}
    (h : List.Forall₂ (KeepsDecl s) ds rs) :
    rs.map (·.span.start) = ds.map (·.span.start) ∧
      ∀ outer, writeDecls outer s rs = declsTokens outer s ds := by
  induction h with
  | nil => exact ⟨rfl, fun _ => rfl⟩
  | cons hrel _ ih =>
    refine ⟨by rw [List.map_cons, List.map_cons, hrel.1, ih.1], fun outer => ?_⟩
    rw [writeDecls, declsTokens, hrel.2, ih.2]

/-- The left-hand side of a clause is taken apart, and is written as before. -/
theorem leftHandSide_tokens (e : Expr) :
    leftTokens (leftHandSide e).2 (writeExprs s (leftHandSide e).1) = e.tokens s := by
  unfold leftHandSide
  split
  · rw [Expr.tokens, writeExprs_eq]
    simp [leftTokens, Expr.tokens, Leaf.tokens, QualifiedName.simple, QualifiedName.tokens]
  · rw [writeExprs_eq, leftTokens_spine]

/-! ## Trees -/

variable (s) in
/-- Resolution keeps the writing of every well-formed tree. -/
theorem keeps (limit : Nat) : Resolution limit (KeepsExpr s) (KeepsAtom s) (KeepsDecl s) where
  run := by
    intro levels span atoms pieces r _ hpieces hgrouped
    rw [KeepsExpr, hgrouped.tokens, tokens_pieces hpieces, exprTokens, Concrete.atomsTokens_eq]
  arrow := by
    intro levels span domain codomain pieces r t _ hpieces hgrouped ht
    rw [KeepsExpr, Expr.tokens, hgrouped.tokens, tokens_pieces hpieces, ht, exprTokens,
      Concrete.atomsTokens_eq]
  pi := by
    intro levels span domain codomain params t _ hdomain ht
    rw [KeepsExpr, Expr.tokens, writeParams_of_domain hdomain, ht, exprTokens,
      Concrete.atomsTokens_eq]
  bind := by
    intro levels span binder bindings body bs r _ hbs hr
    rw [KeepsExpr, Expr.tokens, writeBindings_of_rel hbs, hr, exprTokens]
  letIn := by
    intro span decls body rs r hrs hr
    rw [KeepsExpr, Expr.tokens, (writeDecls_of_rel hrs).2, hr, exprTokens]
  leaf _ := rfl
  paren := by
    intro span e r hr
    rw [KeepsAtom, Expr.tokens, hr, atomTokens]
  record := by
    intro levels span builder fields rs _ hrs
    rw [KeepsAtom, Expr.tokens, writeAssignments_of_rel hrs, atomTokens]
  tail := by
    intro e r hr
    rw [KeepsAtom, hr, atomTokens]
  dataType := by
    intro levels span header constructors h gs _ hheader hgs
    refine ⟨rfl, fun outer => ?_⟩
    rw [writeDecl, declTokens, writeHeader_of_rel hheader, (writeSignatures_of_rel hgs).2]
  emptyData := by
    intro levels span header h _ hheader
    refine ⟨rfl, fun outer => ?_⟩
    rw [writeDecl, declTokens, writeHeader_of_rel hheader]
  recordType := by
    intro levels span header builder fields decls h gs rs _ hheader hgs hrs
    refine ⟨rfl, fun outer => ?_⟩
    obtain ⟨hstarts, hwritten⟩ := writeSignatures_of_rel hgs
    obtain ⟨hstarts', hwritten'⟩ := writeDecls_of_rel hrs
    rw [writeDecl, declTokens, writeHeader_of_rel hheader, hstarts, hstarts', hwritten, hwritten']
  moduleBlock := by
    intro levels span name params decls ps rs _ hps hrs
    refine ⟨rfl, fun outer => ?_⟩
    rw [writeDecl, declTokens, writeParams_of_rel hps, (writeDecls_of_rel hrs).2]
  importModule _ := ⟨rfl, fun _ => rfl⟩
  ascription := by
    intro levels signature g _ hrel
    obtain ⟨span, names, type⟩ := signature
    obtain ⟨span', names', type'⟩ := g
    obtain ⟨rfl, rfl, htype⟩ := hrel
    refine ⟨rfl, fun outer => ?_⟩
    rw [writeDecl, declTokens, htype]
  clause := by
    intro span lhs withPatterns withExpr rhs locals r ws w r' rs hr _ hws hw hr' hrs
    refine ⟨rfl, fun outer => ?_⟩
    have hempty : rs.isEmpty = locals.isEmpty := by
      cases hrs <;> rfl
    rw [writeDecl, declTokens, hempty, (writeDecls_of_rel hrs).2, writeExprs_of_rel hws,
      writeOption_of_rel hw, writeOption_of_rel hr', leftHandSide_tokens, hr, exprsTokens_eq,
      exprsTokens_eq, List.flatMap_singleton, List.nil_append, List.flatMap_def, List.map_map]
    rfl
  fixity _ := ⟨rfl, fun _ => rfl⟩

/-- What a file without problems resolves to is written as before. -/
theorem resolveFile_tokens {limit maxNesting n : Nat} {ds : List (Decl Concrete.Expr)}
    {rs : List (Decl Expr)} (hds : ∀ d ∈ ds, Concrete.Decl.WellFormed limit n d)
    (h : resolveFile maxNesting ds = (rs, [])) (outer s : Style) :
    writeDecls outer s rs = declsTokens outer s ds :=
  (writeDecls_of_rel ((keeps s limit).file hds h)).2 outer

end

end Fixity

end Offside
