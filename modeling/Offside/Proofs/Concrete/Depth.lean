-- SUMMARY: How deep expressions nest in a concrete tree, and the bound that well-formed trees keep.
import Offside.Proofs.Concrete.Respan

/-! # Nesting

The depth of a tree is the number of expressions on its longest path, each in
the one before it. Blocks of declarations do not count, although the grammar
gives up a level for each of them, so a tree of the grammar keeps to its levels
with some to spare: `depth_le`. -/

namespace Offside

namespace Concrete

mutual

/-- How deep expressions nest in an expression. -/
def exprDepth : Expr → Nat
  | .run _ atoms => atomsDepth atoms + 1
  | .arrow _ domain codomain => max (atomsDepth domain) (exprDepth codomain) + 1
  | .bind _ _ bindings body => max (bindingsDepth bindings) (exprDepth body) + 1
  | .letIn _ decls body => max (declsDepth decls) (exprDepth body) + 1

/-- The greatest depth in some atoms. -/
def atomsDepth : List Atom → Nat
  | [] => 0
  | a :: as => max (atomDepth a) (atomsDepth as)

/-- How deep expressions nest in an atom. -/
def atomDepth : Atom → Nat
  | .leaf _ => 0
  | .paren _ e => exprDepth e
  | .param p => paramDepth p
  | .record _ _ fields => assignmentsDepth fields
  | .tail e => exprDepth e

/-- The greatest depth in the values of a record. -/
def assignmentsDepth : List (Assignment Expr) → Nat
  | [] => 0
  | ⟨_, _, value⟩ :: fields => max (exprDepth value) (assignmentsDepth fields)

/-- The depth of the type of a parameter. -/
def paramDepth : Param Expr → Nat
  | ⟨_, _, _, type⟩ => exprDepth type

/-- The greatest depth in some parameters. -/
def paramsDepth : List (Param Expr) → Nat
  | [] => 0
  | p :: ps => max (paramDepth p) (paramsDepth ps)

/-- The greatest depth in some bindings. -/
def bindingsDepth : List (Binding Expr) → Nat
  | [] => 0
  | .name _ :: bs => bindingsDepth bs
  | .typed p :: bs => max (paramDepth p) (bindingsDepth bs)

/-- The depth of an expression that may be missing. -/
def optionDepth : Option Expr → Nat
  | none => 0
  | some e => exprDepth e

/-- The greatest depth of some expressions. -/
def exprsDepth : List Expr → Nat
  | [] => 0
  | e :: es => max (exprDepth e) (exprsDepth es)

/-- The greatest depth in some constructors or fields. -/
def signaturesDepth : List (Signature Expr) → Nat
  | [] => 0
  | ⟨_, _, type⟩ :: gs => max (exprDepth type) (signaturesDepth gs)

/-- The greatest depth in a header. -/
def headerDepth : Header Expr → Nat
  | ⟨_, params, type⟩ => max (paramsDepth params) (optionDepth type)

/-- How deep expressions nest in a declaration. -/
def declDepth : Decl Expr → Nat
  -- Declarations in a block are as deep as beside it.
  | .dataType _ header constructors => max (headerDepth header) (signaturesDepth constructors)
  | .emptyData _ header => headerDepth header
  | .recordType _ header _ fields decls =>
    max (headerDepth header) (max (signaturesDepth fields) (declsDepth decls))
  | .moduleBlock _ _ params decls => max (paramsDepth params) (declsDepth decls)
  | .importModule .. => 0
  | .ascription ⟨_, _, type⟩ => exprDepth type
  | .clause _ patterns _ withPatterns withExpr rhs locals =>
    max (exprsDepth patterns) (max (exprsDepth withPatterns)
      (max (optionDepth withExpr) (max (optionDepth rhs) (declsDepth locals))))
  | .fixity .. => 0

/-- The greatest depth in some declarations. -/
def declsDepth : List (Decl Expr) → Nat
  | [] => 0
  | d :: ds => max (declDepth d) (declsDepth ds)

end

/-! ## Bounds

A list is as deep as its deepest member. -/

section

variable {n : Nat}

theorem paramDepth_eq (p : Param Expr) : paramDepth p = exprDepth p.type := by
  cases p
  rw [paramDepth]

@[simp] theorem atomsDepth_le_iff {as : List Atom} :
    atomsDepth as ≤ n ↔ ∀ a ∈ as, atomDepth a ≤ n := by
  induction as with
  | nil => simp [atomsDepth]
  | cons a as ih => rw [atomsDepth, Nat.max_le, ih, List.forall_mem_cons]

@[simp] theorem assignmentsDepth_le_iff {fs : List (Assignment Expr)} :
    assignmentsDepth fs ≤ n ↔ ∀ f ∈ fs, exprDepth f.value ≤ n := by
  induction fs with
  | nil => simp [assignmentsDepth]
  | cons f fs ih => rw [assignmentsDepth, Nat.max_le, ih, List.forall_mem_cons]

@[simp] theorem paramsDepth_le_iff {ps : List (Param Expr)} :
    paramsDepth ps ≤ n ↔ ∀ p ∈ ps, exprDepth p.type ≤ n := by
  induction ps with
  | nil => simp [paramsDepth]
  | cons p ps ih => rw [paramsDepth, Nat.max_le, ih, List.forall_mem_cons, paramDepth_eq]

@[simp] theorem bindingsDepth_le_iff {bs : List (Binding Expr)} :
    bindingsDepth bs ≤ n ↔ ∀ p, .typed p ∈ bs → exprDepth p.type ≤ n := by
  induction bs with
  | nil => simp [bindingsDepth]
  | cons b bs ih =>
    cases b with
    | name m => simp [bindingsDepth, ih]
    | typed p =>
      rw [bindingsDepth, Nat.max_le, ih, paramDepth_eq]
      simp [or_imp, forall_and]

@[simp] theorem optionDepth_le_iff {o : Option Expr} :
    optionDepth o ≤ n ↔ ∀ e ∈ o, exprDepth e ≤ n := by
  cases o <;> simp [optionDepth]

@[simp] theorem exprsDepth_le_iff {es : List Expr} :
    exprsDepth es ≤ n ↔ ∀ e ∈ es, exprDepth e ≤ n := by
  induction es with
  | nil => simp [exprsDepth]
  | cons e es ih => rw [exprsDepth, Nat.max_le, ih, List.forall_mem_cons]

@[simp] theorem signaturesDepth_le_iff {gs : List (Signature Expr)} :
    signaturesDepth gs ≤ n ↔ ∀ g ∈ gs, exprDepth g.type ≤ n := by
  induction gs with
  | nil => simp [signaturesDepth]
  | cons g gs ih => rw [signaturesDepth, Nat.max_le, ih, List.forall_mem_cons]

@[simp] theorem headerDepth_le_iff {header : Header Expr} :
    headerDepth header ≤ n ↔
      (∀ p ∈ header.params, exprDepth p.type ≤ n) ∧ ∀ e ∈ header.type, exprDepth e ≤ n := by
  cases header
  rw [headerDepth, Nat.max_le, paramsDepth_le_iff, optionDepth_le_iff]

@[simp] theorem declsDepth_le_iff {ds : List (Decl Expr)} :
    declsDepth ds ≤ n ↔ ∀ d ∈ ds, declDepth d ≤ n := by
  induction ds with
  | nil => simp [declsDepth]
  | cons d ds ih => rw [declsDepth, Nat.max_le, ih, List.forall_mem_cons]

theorem exprDepth_pos (e : Expr) : 0 < exprDepth e := by
  cases e <;> rw [exprDepth] <;> exact Nat.succ_pos _

end

/-! ## Well-formed trees -/

/-- A tree of the grammar nests no deeper than its levels. -/
theorem depth_le (limit : Nat) : Cases (fun e => ∀ n, e.WellFormed limit n → exprDepth e ≤ n)
    (fun a => ∀ n, a.WellFormed limit n → atomDepth a ≤ n)
    (fun d => ∀ n, Decl.WellFormed limit n d → declDepth d ≤ n) where
  run := by
    intro span atoms ih n h
    cases h with
    | run _ each =>
      rw [exprDepth, Nat.add_le_add_iff_right, atomsDepth_le_iff]
      exact fun a ha => ih a ha _ (each a ha)
  arrow := by
    intro span domain codomain ihs ih n h
    cases h with
    | arrow _ _ each target =>
      rw [exprDepth, Nat.add_le_add_iff_right, Nat.max_le, atomsDepth_le_iff]
      exact ⟨fun a ha => ihs a ha _ (each a ha), ih _ target⟩
  bind := by
    intro span binder bindings body ihs ih n h
    cases h with
    | bind _ _ types result =>
      rw [exprDepth, Nat.add_le_add_iff_right, Nat.max_le, bindingsDepth_le_iff]
      exact ⟨fun p hp => ihs p hp _ (types p hp), ih _ result⟩
  letIn := by
    intro span decls body ihs ih n h
    cases h with
    | letIn each result =>
      rw [exprDepth, Nat.add_le_add_iff_right, Nat.max_le, declsDepth_le_iff]
      -- The block gives up a level of its own.
      exact ⟨fun d hd => Nat.le_succ_of_le (ihs d hd _ (each d hd)), ih _ result⟩
  leaf := by
    intro l n _
    rw [atomDepth]
    exact Nat.zero_le n
  paren := by
    intro span e ih n h
    cases h with
    | paren inner => exact ih n inner
  param := by
    intro p ih n h
    cases h with
    | param _ type =>
      rw [atomDepth, paramDepth_eq]
      exact ih n type
  record := by
    intro span builder fields ihs n h
    cases h with
    | record _ values =>
      rw [atomDepth, assignmentsDepth_le_iff]
      exact fun f hf => ihs f hf n (values f hf)
  tail := by
    intro e ih n h
    cases h with
    | tail _ inner => exact ih n inner
  dataType := by
    intro span header constructors ihps iht ihs n h
    cases h with
    | dataType _ params type _ types =>
      rw [declDepth, Nat.max_le, headerDepth_le_iff, signaturesDepth_le_iff]
      exact ⟨⟨fun p hp => ihps p hp _ (params p hp), fun e he => iht e he _ (type e he)⟩,
        fun g hg => Nat.le_succ_of_le (ihs g hg _ (types g hg))⟩
  emptyData := by
    intro span header ihps iht n h
    cases h with
    | emptyData _ params type =>
      rw [declDepth, headerDepth_le_iff]
      exact ⟨fun p hp => ihps p hp n (params p hp), fun e he => iht e he n (type e he)⟩
  recordType := by
    intro span header builder fields decls ihps iht ihs ihds n h
    cases h with
    | recordType _ params type _ types each =>
      rw [declDepth, Nat.max_le, Nat.max_le, headerDepth_le_iff, signaturesDepth_le_iff,
        declsDepth_le_iff]
      exact ⟨⟨fun p hp => ihps p hp _ (params p hp), fun e he => iht e he _ (type e he)⟩,
        fun g hg => Nat.le_succ_of_le (ihs g hg _ (types g hg)),
        fun d hd => Nat.le_succ_of_le (ihds d hd _ (each d hd))⟩
  moduleBlock := by
    intro span name params decls ihps ihds n h
    cases h with
    | moduleBlock _ _ types each =>
      rw [declDepth, Nat.max_le, paramsDepth_le_iff, declsDepth_le_iff]
      exact ⟨fun p hp => ihps p hp _ (types p hp),
        fun d hd => Nat.le_succ_of_le (ihds d hd _ (each d hd))⟩
  importModule := by
    intro span kind name n _
    rw [declDepth]
    exact Nat.zero_le n
  ascription := by
    intro signature ih n h
    cases h with
    | ascription _ type => exact ih n type
  clause := by
    intro span patterns isOperator withPatterns withExpr rhs locals ihs ihws ihw ihr ihds n h
    cases h with
    | clause _ left others scrutinee right _ room each =>
      rw [declDepth, Nat.max_le, Nat.max_le, Nat.max_le, Nat.max_le, exprsDepth_le_iff,
        exprsDepth_le_iff, optionDepth_le_iff, optionDepth_le_iff, declsDepth_le_iff]
      refine ⟨List.forall_mem_singleton.2 (ihs _ List.mem_cons_self n left),
        fun e he => ihws e he n (others e he), fun e he => ihw e he n (scrutinee e he),
        fun e he => ihr e he n (right e he), fun d hd => ?_⟩
      -- A clause without a block needs no level, so `n` may be zero.
      exact Nat.le_trans (ihds d hd _ (each d hd)) (Nat.sub_le n 1)
  fixity := by
    intro span fixity operators n _
    rw [declDepth]
    exact Nat.zero_le n

end Concrete

end Offside
