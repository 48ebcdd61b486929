-- SUMMARY: How high a tree can be that resolution makes of a tree of the grammar.
import Offside.Proofs.Expr.Height
import Offside.Proofs.Fixity.Climbing
import Offside.Proofs.Fixity.Shaped

/-! # Heights of resolved trees

A run may be long, and the tree that it is grouped to may be as high. Where steps
along chains do not count, it is only higher than its operands by an argument and
by the right operands that are open at once, of which there are at most as many
as there are levels: `height_groupPieces`. So the levels of a tree bound the
height of what it resolves to. -/

namespace Offside

namespace Fixity

/-! ## Runs -/

section

variable {h : Nat}

/-- The operands of a chain are applications of members of the run. -/
theorem Chain.height_build {operand : Expr} {pieces : List Piece} {chain : Chain}
    (hbuild : build operand pieces = .ok chain) (hoperand : operand.height .nesting ≤ h + 1)
    (hpieces : ∀ e, .operand e ∈ pieces → e.height .nesting ≤ h) :
    chain.head.height .nesting ≤ h + 1 ∧ ∀ link ∈ chain.links, link.2.height .nesting ≤ h + 1 := by
  fun_induction build operand pieces generalizing chain with
  | case1 operand =>
    obtain rfl := Except.ok.inj hbuild
    exact ⟨hoperand, by simp⟩
  | case2 operand arg pieces ih =>
    have harg := hpieces arg List.mem_cons_self
    refine ih hbuild ?_ fun e he => hpieces e (List.mem_cons_of_mem _ he)
    rw [Expr.apply, Expr.height, Nat.max_le]
    exact ⟨hoperand, Nat.add_le_add_right harg 1⟩
  | case3 | case4 => cases hbuild
  | case5 operand op next pieces ih =>
    obtain ⟨⟨next', links⟩, hnext, hchain⟩ := ok_of_bind hbuild
    obtain rfl := Except.ok.inj hchain
    obtain ⟨hhead, hlinks⟩ := ih hnext (Nat.le_succ_of_le (hpieces next (by simp)))
      fun e he => hpieces e (by simp [he])
    exact ⟨hoperand, List.forall_mem_cons.2 ⟨hhead, hlinks⟩⟩

/-- A grouping is higher than its operands by the right edges on a path. -/
theorem Grouping.height_expr {t : Grouping} (hhead : t.head.height .nesting ≤ h)
    (hlinks : ∀ link ∈ t.links, link.2.height .nesting ≤ h) :
    t.expr.height .nesting ≤ h + t.rightEdges := by
  induction t with
  | operand e => exact hhead
  | operation op left right ihl ihr =>
    obtain ⟨hleft, hright⟩ := List.forall_mem_append.1 hlinks
    obtain ⟨hfirst, hright⟩ := List.forall_mem_cons.1 hright
    have hl := ihl hhead hleft
    have hr := ihr hfirst hright
    rw [expr, Expr.operate, Expr.height, rightEdges]
    have hcounted : Counted.nesting.lefts.toNat = 0 := rfl
    omega

theorem height_groupPieces {budget : Nat} {span : Span} {pieces : List Piece} {r : Expr}
    (hpieces : ∀ e, .operand e ∈ pieces → e.height .nesting ≤ h)
    (hr : (groupPieces budget span pieces).result = .ok r) :
    r.height .nesting ≤ h + 1 + budget := by
  rw [groupPieces_eq] at hr
  obtain ⟨chain, hchain, hgroup⟩ := ok_of_bind hr
  obtain ⟨hhead, hlinks⟩ : chain.head.height .nesting ≤ h + 1 ∧
      ∀ link ∈ chain.links, link.2.height .nesting ≤ h + 1 := by
    cases pieces with
    | nil => cases hchain
    | cons piece pieces =>
      cases piece with
      | operator op => cases hchain
      | operand e =>
        exact Chain.height_build hchain (Nat.le_succ_of_le (hpieces e List.mem_cons_self))
          fun e he => hpieces e (List.mem_cons_of_mem _ he)
  rcases Chain.group_cases budget chain with ⟨t, rfl, -, hedges, hok⟩ | ⟨op, hdeep⟩ | ⟨_, _, _, d, -, -, hd, -⟩
  · obtain rfl := Except.ok.inj (hok.symm.trans hgroup)
    exact Nat.le_trans (Grouping.height_expr hhead hlinks) (Nat.add_le_add_left hedges _)
  · cases hdeep.symm.trans hgroup
  · cases hd.symm.trans hgroup

end

/-! ## Left-hand sides -/

/-- The parts of an application are no higher than it is. -/
theorem height_spine (e : Expr) : ∀ e' ∈ e.spine, e'.height .nesting ≤ e.height .nesting := by
  induction e using Expr.spine.induct with
  | case1 span fn arg ih =>
    rw [Expr.spine, Expr.height]
    refine List.forall_mem_append.2 ⟨fun e' he' => ?_, List.forall_mem_singleton.2 ?_⟩
    · exact Nat.le_trans (ih e' he') (Nat.le_max_left _ _)
    · exact Nat.le_trans (Nat.le_succ _) (Nat.le_max_right _ _)
  | case2 e hother =>
    rw [Expr.spine]
    · exact List.forall_mem_singleton.2 (Nat.le_refl _)
    · exact hother

/-- The defined name and its patterns are no higher than the left-hand side. -/
theorem height_leftHandSide (e : Expr) :
    ∀ e' ∈ (leftHandSide e).1, e'.height .nesting ≤ e.height .nesting := by
  cases e with
  | operation span operator left right =>
    simp only [leftHandSide, List.forall_mem_cons, Expr.height]
    exact ⟨by omega, Nat.le_max_left _ _, by omega, List.forall_mem_nil _⟩
  | _ => exact height_spine _

theorem height_leftHandSides {es : List Expr} {h : Nat} (hes : exprsHeight .nesting es ≤ h) :
    exprsHeight .nesting ((es.map leftHandSide).flatMap (·.1)) ≤ h := by
  simp only [exprsHeight_eq, highest_le_iff, List.forall_mem_map, List.flatMap_map,
    List.mem_flatMap] at hes ⊢
  rintro e ⟨e', he', he⟩
  exact Nat.le_trans (height_leftHandSide e' e he) (hes e' he')

/-! ## Trees -/

section

variable {limit maxNesting h : Nat} {table : Table} {levels : Nat}

variable (maxNesting h) in
/-- What the expression resolves to with at most `maxNesting` levels is at most
`h` high. -/
def BoundsExpr (e : Concrete.Expr) : Prop :=
  ∀ table levels r, levels ≤ maxNesting → ResolvesTo maxNesting table levels e r →
    r.height .nesting ≤ h

variable (maxNesting h) in
/-- The same of an atom that is an operand, which may be a node of its own, or a
typed parameter. -/
def BoundsAtom (a : Concrete.Atom) : Prop :=
  (∀ table levels r, levels ≤ maxNesting → (resolveAtom maxNesting table levels a).result = .ok r →
    r.height .nesting ≤ h + 1) ∧ ∀ p, a = .param p → BoundsExpr maxNesting h p.type

variable (maxNesting h) in
/-- The same of a declaration. -/
def BoundsDecl (d : Decl Concrete.Expr) : Prop :=
  ∀ table levels r, levels ≤ maxNesting → (resolveDecl maxNesting table levels d).result = .ok r →
    declHeight .nesting r ≤ h

theorem BoundsDecl.mono {h' : Nat} {d : Decl Concrete.Expr} (hd : BoundsDecl maxNesting h d)
    (hle : h ≤ h') : BoundsDecl maxNesting h' d :=
  fun table levels r hlevels hr => Nat.le_trans (hd table levels r hlevels hr) hle

theorem BoundsExpr.height {e : Concrete.Expr} (he : BoundsExpr maxNesting h e)
    (hlevels : levels ≤ maxNesting) (r : Expr) (hr : ResolvesTo maxNesting table levels e r) :
    r.height .nesting ≤ h := he table levels r hlevels hr

theorem height_run {atoms : List Concrete.Atom} {pieces : List Piece} {span : Span} {r : Expr}
    (hatoms : ∀ a ∈ atoms, BoundsAtom maxNesting h a) (hlevels : levels ≤ maxNesting)
    (hpieces : List.Forall₂ (PieceResult maxNesting table levels) atoms pieces)
    (hr : (groupPieces levels span pieces).result = .ok r) :
    r.height .nesting ≤ h + maxNesting + 2 := by
  have hoperands : ∀ piece ∈ pieces, ∀ e, piece = .operand e → e.height .nesting ≤ h + 1 := by
    refine forall_mem_of_forall₂ hpieces (fun a _ piece hpiece ha e he => ?_) hatoms
    cases hpiece with
    | operator => cases he
    | operand _ inner =>
      obtain rfl := Piece.operand.inj he
      exact ha.1 table levels _ hlevels inner
  have hgroup := height_groupPieces (fun e he => hoperands _ he e rfl) hr
  omega

theorem height_params {ps : List (Param Concrete.Expr)} {rs : List (Param Expr)}
    (hps : ∀ p ∈ ps, BoundsExpr maxNesting h p.type) (hlevels : levels ≤ maxNesting)
    (hr : List.Forall₂ (Param.Rel (ResolvesTo maxNesting table levels)) ps rs) :
    paramsHeight .nesting rs ≤ h := by
  simp only [paramsHeight_eq, highest_le_iff, List.forall_mem_map]
  exact forall_params hr fun p hp => (hps p hp).height hlevels

theorem height_bindings {bs : List (Binding Concrete.Expr)} {rs : List (Binding Expr)}
    (hbs : ∀ p, .typed p ∈ bs → BoundsExpr maxNesting h p.type) (hlevels : levels ≤ maxNesting)
    (hr : List.Forall₂ (Binding.Rel (ResolvesTo maxNesting table levels)) bs rs) :
    bindingsHeight .nesting rs ≤ h := by
  simp only [bindingsHeight_eq, highest_le_iff, List.forall_mem_map]
  rintro (n | p) hp
  · exact Nat.zero_le _
  · exact forall_bindings hr (fun p hp => (hbs p hp).height hlevels) p hp

theorem height_signatures {gs : List (Signature Concrete.Expr)} {rs : List (Signature Expr)}
    (hgs : ∀ g ∈ gs, BoundsExpr maxNesting h g.type) (hlevels : levels ≤ maxNesting)
    (hr : List.Forall₂ (Signature.Rel (ResolvesTo maxNesting table levels)) gs rs) :
    signaturesHeight .nesting rs ≤ h := by
  simp only [signaturesHeight_eq, highest_le_iff, List.forall_mem_map]
  exact forall_signatures hr fun g hg => (hgs g hg).height hlevels

theorem height_option {o : Option Concrete.Expr} {r : Option Expr}
    (ho : ∀ e ∈ o, BoundsExpr maxNesting h e) (hlevels : levels ≤ maxNesting)
    (hr : Option.Rel (ResolvesTo maxNesting table levels) o r) :
    optionHeight .nesting r ≤ h := by
  simp only [optionHeight_eq, highest_le_iff, List.forall_mem_map, Option.mem_toList]
  exact forall_option hr fun e he => (ho e he).height hlevels

theorem height_patterns {es : List Concrete.Expr} {rs : List Expr}
    (hes : ∀ e ∈ es, BoundsExpr maxNesting h e) (hlevels : levels ≤ maxNesting)
    (hr : List.Forall₂ (fun e r => ResolvesTo maxNesting table levels e r ∧
      ensurePattern r = .ok ()) es rs) :
    exprsHeight .nesting rs ≤ h := by
  simp only [exprsHeight_eq, highest_le_iff, List.forall_mem_map]
  exact forall_mem_of_forall₂ hr (fun _ _ r he hs => hs.height hlevels r he.1) hes

theorem height_header {header : Header Concrete.Expr} {r : Header Expr}
    (hparams : ∀ p ∈ header.params, BoundsExpr maxNesting h p.type)
    (htype : ∀ e ∈ header.type, BoundsExpr maxNesting h e) (hlevels : levels ≤ maxNesting)
    (hr : header.Rel (ResolvesTo maxNesting table levels) r) : headerHeight .nesting r ≤ h := by
  rw [headerHeight_eq, Nat.max_le, ← paramsHeight_eq, ← optionHeight_eq]
  exact ⟨height_params hparams hlevels hr.params, height_option htype hlevels hr.type⟩

theorem height_resolveDecls {ds : List (Decl Concrete.Expr)}
    (hds : ∀ d ∈ ds, BoundsDecl maxNesting h d) (hlevels : levels ≤ maxNesting) :
    declsHeight .nesting (resolveDecls maxNesting table levels ds).1 ≤ h := by
  simp only [declsHeight_eq, highest_le_iff, List.forall_mem_map]
  intro r hr
  obtain ⟨d, hd, hresult⟩ := exists_of_mem_resolveDecls hr
  exact hds d hd table levels r hlevels hresult

/-- The levels of a tree bound the height of what it resolves to. -/
theorem bounds (limit maxNesting : Nat) : Concrete.Cases
    (fun e => ∀ n, e.WellFormed limit n → BoundsExpr maxNesting (n * (maxNesting + 3)) e)
    (fun a => ∀ n, a.WellFormed limit n → BoundsAtom maxNesting (n * (maxNesting + 3)) a)
    (fun d => ∀ n, Concrete.Decl.WellFormed limit n d →
      BoundsDecl maxNesting (n * (maxNesting + 3) + 1) d) where
  run := by
    intro span atoms ih n hwf table levels r hlevels hr
    cases hwf with
    | @run n _ _ shape each =>
      cases exprResult_of_ok hr with
      | run members group =>
        have hrun := height_run (fun a ha => ih a ha n (each a ha)) (by omega) members group
        rw [Nat.succ_mul]
        omega
  arrow := by
    intro span domain codomain ihs ih n hwf table levels r hlevels hr
    cases hwf with
    | @arrow n _ _ _ _ _ each target =>
      have hdomain := fun a ha => ihs a ha n (each a ha)
      cases exprResult_of_ok hr with
      | pi source result =>
        have hparams := height_params
          (fun p hp => (hdomain _ (List.mem_map_of_mem hp)).2 p rfl) (by omega) source
        have hcodomain := (ih n target).height (by omega) _ result
        rw [Expr.height, Nat.succ_mul]
        omega
      | arrow members group result =>
        have hrun := height_run hdomain (by omega) members group
        have hcodomain := (ih n target).height (by omega) _ result
        rw [Expr.height, Nat.succ_mul]
        omega
  bind := by
    intro span binder bindings body ihs ih n hwf table levels r hlevels hr
    cases hwf with
    | @bind n _ _ _ _ _ _ types inner =>
      cases exprResult_of_ok hr with
      | bind bound result =>
        have hbindings := height_bindings (fun p hp => ihs p hp n (types p hp)) (by omega) bound
        have hbody := (ih n inner).height (by omega) _ result
        rw [Expr.height, Nat.succ_mul]
        omega
  letIn := by
    intro span decls body ihs ih n hwf table levels r hlevels hr
    cases hwf with
    | @letIn n _ _ _ each inner =>
      cases exprResult_of_ok hr with
      | @letIn k _ _ _ _ result =>
        have hdecls : declsHeight .nesting (resolveDecls maxNesting (table.enter decls).1 k decls).1 ≤ _ :=
          height_resolveDecls (fun d hd => ihs d hd n (each d hd)) (by omega)
        have hbody := (ih (n + 1) inner).height (by omega) _ result
        rw [Nat.succ_mul] at hbody
        rw [Expr.height, Nat.succ_mul, Nat.succ_mul]
        omega
  leaf := by
    intro l n _
    refine ⟨fun table levels r _ hr => ?_, by simp⟩
    cases atomResult_of_ok hr with
    | leaf =>
      rw [Expr.height]
      omega
  paren := by
    intro span e ih n hwf
    refine ⟨fun table levels r hlevels hr => ?_, by simp⟩
    cases hwf with
    | paren inner =>
      cases atomResult_of_ok hr with
      | paren result =>
        rw [Expr.height]
        exact Nat.add_le_add_right ((ih n inner).height hlevels _ result) 1
  param := by
    intro p ih n hwf
    cases hwf with
    | param _ type =>
      refine ⟨fun table levels r _ hr => ?_, ?_⟩
      · cases atomResult_of_ok hr
      · rintro _ ⟨⟩
        exact ih n type
  record := by
    intro span builder fields ihs n hwf
    refine ⟨fun table levels r hlevels hr => ?_, by simp⟩
    cases hwf with
    | record _ inner =>
      cases atomResult_of_ok hr with
      | record values =>
        rw [Expr.height, Nat.add_le_add_iff_right]
        simp only [assignmentsHeight_eq, highest_le_iff, List.forall_mem_map]
        exact forall_assignments values fun f hf => (ihs f hf n (inner f hf)).height hlevels
  tail := by
    intro e ih n hwf
    refine ⟨fun table levels r hlevels hr => ?_, by simp⟩
    cases hwf with
    | tail form inner =>
      cases atomResult_of_ok hr with
      | tail result => exact Nat.le_succ_of_le ((ih n inner).height hlevels _ result)
  dataType := by
    intro span header constructors ihps iht ihs n hwf table levels r hlevels hr
    cases hwf with
    | @dataType n _ _ _ _ params type _ inner =>
      cases declResult_of_ok hr with
      | dataType head types =>
        have hhead := height_header (fun p hp => ihps p hp _ (params p hp))
          (fun e he => iht e he _ (type e he)) hlevels head
        have htypes := height_signatures (fun g hg => ihs g hg n (inner g hg)) hlevels types
        rw [declHeight, Nat.add_le_add_iff_right, Nat.max_le]
        exact ⟨hhead, Nat.le_trans htypes (Nat.mul_le_mul_right _ (Nat.le_succ n))⟩
  emptyData := by
    intro span header ihps iht n hwf table levels r hlevels hr
    cases hwf with
    | emptyData _ params type =>
      cases declResult_of_ok hr with
      | emptyData head =>
        rw [declHeight, Nat.add_le_add_iff_right]
        exact height_header (fun p hp => ihps p hp n (params p hp))
          (fun e he => iht e he n (type e he)) hlevels head
  recordType := by
    intro span header builder fields decls ihps iht ihs ihds n hwf table levels r hlevels hr
    cases hwf with
    | @recordType n _ _ _ _ _ _ params type _ inner each =>
      cases declResult_of_ok hr with
      | recordType head types =>
        have hhead := height_header (fun p hp => ihps p hp _ (params p hp))
          (fun e he => iht e he _ (type e he)) hlevels head
        have htypes := height_signatures (fun g hg => ihs g hg n (inner g hg)) hlevels types
        have hdecls : declsHeight .nesting
            (resolveDecls maxNesting (table.enter decls).1 levels decls).1 ≤ _ :=
          height_resolveDecls (fun d hd => ihds d hd n (each d hd)) hlevels
        rw [Nat.succ_mul] at hhead ⊢
        rw [declHeight]
        omega
  moduleBlock := by
    intro span name params decls ihps ihds n hwf table levels r hlevels hr
    cases hwf with
    | @moduleBlock n _ _ _ _ _ _ types each =>
      cases declResult_of_ok hr with
      | moduleBlock head =>
        have hparams := height_params (fun p hp => ihps p hp _ (types p hp)) hlevels head
        have hdecls : declsHeight .nesting
            (resolveDecls maxNesting (table.enter decls).1 levels decls).1 ≤ _ :=
          height_resolveDecls (fun d hd => ihds d hd n (each d hd)) hlevels
        rw [Nat.succ_mul] at hparams ⊢
        rw [declHeight]
        omega
  importModule := by
    intro span kind name n _ table levels r _ hr
    cases declResult_of_ok hr with
    | importModule =>
      rw [declHeight]
      omega
  ascription := by
    intro signature ih n hwf table levels r hlevels hr
    cases hwf with
    | ascription _ inner =>
      cases declResult_of_ok hr with
      | ascription result =>
        rw [declHeight_ascription, Nat.add_le_add_iff_right]
        exact (ih n inner).height hlevels _ result.type
  clause := by
    intro span patterns isOperator withPatterns withExpr rhs locals ihs ihws ihw ihr ihds n hwf
      table levels r hlevels hr
    cases hwf with
    | clause _ wellLeft wellOthers wellScrutinee wellRight _ room each =>
      cases declResult_of_ok hr with
      | clause left others scrutinee right =>
        have hleft := height_leftHandSides (height_patterns
          (fun e he => ihs e he n (List.mem_singleton.1 he ▸ wellLeft)) hlevels left)
        have hothers := height_patterns (fun e he => ihws e he n (wellOthers e he)) hlevels others
        have hexpr := height_option (fun e he => ihw e he n (wellScrutinee e he)) hlevels scrutinee
        have hrhs := height_option (fun e he => ihr e he n (wellRight e he)) hlevels right
        have hlocals : declsHeight .nesting
            (resolveDecls maxNesting (table.enter locals).1 levels locals).1 ≤
              n * (maxNesting + 3) := by
          refine height_resolveDecls (fun d hd => (ihds d hd _ (each d hd)).mono ?_) hlevels
          -- A block has a level of its own to spare.
          obtain ⟨m, rfl⟩ : ∃ m, n = m + 1 :=
            Nat.exists_eq_add_one.2 (room (List.ne_nil_of_mem hd))
          rw [Nat.succ_mul, Nat.add_sub_cancel]
          omega
        rw [declHeight]
        omega
  fixity := by
    intro span fixity operators n _ table levels r _ hr
    cases declResult_of_ok hr with
    | fixity =>
      rw [declHeight]
      omega

end

end Fixity

end Offside
