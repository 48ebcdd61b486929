-- SUMMARY: The height of a tree with operators resolved, and that spans do not matter for it.
import Offside.Proofs.Expr.Respan

/-! # Heights

The height of a tree is the number of nodes on its longest path. A chain of
applications and a chain of operators that group to the left are written side by
side and not inside each other, so `Counted` says whether the steps along these
count. -/

namespace Offside

/-- Which steps down a tree count, of those from an application to its function
and from an operation to its left side. All others do. -/
structure Counted where
  functions : Bool
  lefts : Bool
  deriving DecidableEq, Repr

/-- All steps count. -/
def Counted.all : Counted := ⟨true, true⟩

/-- Only steps count that go into something. -/
def Counted.nesting : Counted := ⟨false, false⟩

mutual

/-- The greatest number of nodes on a path down an expression. What binds or
names something in it belongs to the node it is in. -/
def Expr.height (counted : Counted) : Expr → Nat
  | .leaf _ => 1
  | .paren _ e => e.height counted + 1
  | .record _ _ fields => assignmentsHeight counted fields + 1
  | .arrow _ domain codomain => max (domain.height counted) (codomain.height counted) + 1
  | .pi _ params codomain => max (paramsHeight counted params) (codomain.height counted) + 1
  | .bind _ _ bindings body => max (bindingsHeight counted bindings) (body.height counted) + 1
  | .letIn _ decls body => max (declsHeight counted decls) (body.height counted) + 1
  | .app _ fn arg => max (fn.height counted + counted.functions.toNat) (arg.height counted + 1)
  | .operation _ _ left right =>
    max (left.height counted + counted.lefts.toNat) (right.height counted + 1)

/-- The greatest height of the values of a record. -/
def assignmentsHeight (counted : Counted) : List (Assignment Expr) → Nat
  | [] => 0
  | ⟨_, _, value⟩ :: fields => max (value.height counted) (assignmentsHeight counted fields)

/-- The greatest height of the types of some parameters. -/
def paramsHeight (counted : Counted) : List (Param Expr) → Nat
  | [] => 0
  | ⟨_, _, _, type⟩ :: ps => max (type.height counted) (paramsHeight counted ps)

/-- The greatest height of the types in some bindings. -/
def bindingsHeight (counted : Counted) : List (Binding Expr) → Nat
  | [] => 0
  | .name _ :: bs => bindingsHeight counted bs
  | .typed ⟨_, _, _, type⟩ :: bs => max (type.height counted) (bindingsHeight counted bs)

/-- The height of an expression that may be missing. -/
def optionHeight (counted : Counted) : Option Expr → Nat
  | none => 0
  | some e => e.height counted

/-- The greatest height of some expressions. -/
def exprsHeight (counted : Counted) : List Expr → Nat
  | [] => 0
  | e :: es => max (e.height counted) (exprsHeight counted es)

/-- The greatest height of the types of some constructors or fields. -/
def signaturesHeight (counted : Counted) : List (Signature Expr) → Nat
  | [] => 0
  | ⟨_, _, type⟩ :: gs => max (type.height counted) (signaturesHeight counted gs)

/-- The greatest height of the types in a header. -/
def headerHeight (counted : Counted) : Header Expr → Nat
  | ⟨_, params, type⟩ => max (paramsHeight counted params) (optionHeight counted type)

/-- The greatest number of nodes on a path down a declaration. -/
def declHeight (counted : Counted) : Decl Expr → Nat
  | .dataType _ header constructors =>
    max (headerHeight counted header) (signaturesHeight counted constructors) + 1
  | .emptyData _ header => headerHeight counted header + 1
  | .recordType _ header _ fields decls =>
    max (headerHeight counted header)
      (max (signaturesHeight counted fields) (declsHeight counted decls)) + 1
  | .moduleBlock _ _ params decls =>
    max (paramsHeight counted params) (declsHeight counted decls) + 1
  | .importModule .. => 1
  | .ascription ⟨_, _, type⟩ => type.height counted + 1
  | .clause _ patterns _ withPatterns withExpr rhs locals =>
    max (exprsHeight counted patterns) (max (exprsHeight counted withPatterns)
      (max (optionHeight counted withExpr) (max (optionHeight counted rhs)
        (declsHeight counted locals)))) + 1
  | .fixity .. => 1

/-- The greatest height of some declarations. -/
def declsHeight (counted : Counted) : List (Decl Expr) → Nat
  | [] => 0
  | d :: ds => max (declHeight counted d) (declsHeight counted ds)

end

/-- The greatest number of nodes on a path down a file. -/
def File.height (counted : Counted) (file : File) : Nat := declsHeight counted file.decls

/-! ## Lists

A list is as high as its highest member. -/

/-- The greatest of some numbers. -/
def highest (ns : List Nat) : Nat := ns.foldr max 0

@[simp] theorem highest_le_iff {ns : List Nat} {n : Nat} : highest ns ≤ n ↔ ∀ k ∈ ns, k ≤ n := by
  induction ns with
  | nil => simp [highest]
  | cons k ns ih =>
    rw [List.forall_mem_cons, ← ih]
    exact Nat.max_le

section

variable {counted : Counted}

@[simp] theorem assignmentsHeight_eq (fs : List (Assignment Expr)) :
    assignmentsHeight counted fs = highest (fs.map (·.value.height counted)) := by
  induction fs with
  | nil => rfl
  | cons f fs ih => rw [assignmentsHeight, ih]; rfl

@[simp] theorem paramsHeight_eq (ps : List (Param Expr)) :
    paramsHeight counted ps = highest (ps.map (·.type.height counted)) := by
  induction ps with
  | nil => rfl
  | cons p ps ih => rw [paramsHeight, ih]; rfl

variable (counted) in
/-- The height of the type in a binding. -/
def bindingHeight : Binding Expr → Nat
  | .name _ => 0
  | .typed p => p.type.height counted

@[simp] theorem bindingsHeight_eq (bs : List (Binding Expr)) :
    bindingsHeight counted bs = highest (bs.map (bindingHeight counted)) := by
  induction bs with
  | nil => rfl
  | cons b bs ih =>
    cases b with
    | name n => rw [bindingsHeight, ih]; exact (Nat.zero_max _).symm
    | typed p => rw [bindingsHeight, ih]; rfl

@[simp] theorem optionHeight_eq (o : Option Expr) :
    optionHeight counted o = highest (o.toList.map (·.height counted)) := by
  cases o with
  | none => rw [optionHeight]; rfl
  | some e => rw [optionHeight]; exact (Nat.max_zero _).symm

@[simp] theorem exprsHeight_eq (es : List Expr) :
    exprsHeight counted es = highest (es.map (·.height counted)) := by
  induction es with
  | nil => rfl
  | cons e es ih => rw [exprsHeight, ih]; rfl

@[simp] theorem signaturesHeight_eq (gs : List (Signature Expr)) :
    signaturesHeight counted gs = highest (gs.map (·.type.height counted)) := by
  induction gs with
  | nil => rfl
  | cons g gs ih => rw [signaturesHeight, ih]; rfl

theorem headerHeight_eq (header : Header Expr) :
    headerHeight counted header = max (highest (header.params.map (·.type.height counted)))
      (highest (header.type.toList.map (·.height counted))) := by
  cases header
  rw [headerHeight, paramsHeight_eq, optionHeight_eq]

theorem declHeight_ascription (g : Signature Expr) :
    declHeight counted (.ascription g) = g.type.height counted + 1 := by
  cases g
  rw [declHeight]

@[simp] theorem declsHeight_eq (ds : List (Decl Expr)) :
    declsHeight counted ds = highest (ds.map (declHeight counted)) := by
  induction ds with
  | nil => rfl
  | cons d ds ih => rw [declsHeight, ih]; rfl

/-! ## Spans -/

theorem map_paramHeight_bare {ps : List (Param Expr)}
    (h : ∀ p ∈ ps, p.type.bare.height counted = p.type.height counted) :
    (ps.map bareParam).map (·.type.height counted) = ps.map (·.type.height counted) :=
  map_map_of_forall fun p hp => by rw [bareParam_eq, h p hp]

theorem map_signatureHeight_bare {gs : List (Signature Expr)}
    (h : ∀ g ∈ gs, g.type.bare.height counted = g.type.height counted) :
    (gs.map bareSignature).map (·.type.height counted) = gs.map (·.type.height counted) :=
  map_map_of_forall fun g hg => by rw [bareSignature_eq, h g hg]

theorem map_optionHeight_bare {o : Option Expr}
    (h : ∀ e ∈ o, e.bare.height counted = e.height counted) :
    (o.map Expr.bare).toList.map (·.height counted) = o.toList.map (·.height counted) := by
  cases o with
  | none => rfl
  | some e => exact congrArg (fun n => [n]) (h e rfl)

theorem headerHeight_bare {header : Header Expr}
    (hparams : ∀ p ∈ header.params, p.type.bare.height counted = p.type.height counted)
    (htype : ∀ e ∈ header.type, e.bare.height counted = e.height counted) :
    headerHeight counted (bareHeader header) = headerHeight counted header := by
  rw [headerHeight_eq, headerHeight_eq, bareHeader_eq, map_paramHeight_bare hparams,
    map_optionHeight_bare htype]

/-- The height does not show spans. -/
theorem height_bare (counted : Counted) :
    Expr.Cases (fun e => e.bare.height counted = e.height counted)
      (fun d => declHeight counted (bareDecl d) = declHeight counted d) where
  leaf l := by rw [Expr.bare, Expr.height, Expr.height]
  paren span e he := by rw [Expr.bare, Expr.height, Expr.height, he]
  record span builder fields hfields := by
    rw [Expr.bare, Expr.height, Expr.height, assignmentsHeight_eq, assignmentsHeight_eq,
      bareAssignments_eq, map_map_of_forall hfields]
  arrow span domain codomain hdomain hcodomain := by
    rw [Expr.bare, Expr.height, Expr.height, hdomain, hcodomain]
  pi span params codomain hparams hcodomain := by
    rw [Expr.bare, Expr.height, Expr.height, paramsHeight_eq, paramsHeight_eq, bareParams_eq,
      map_paramHeight_bare hparams, hcodomain]
  bind span binder bindings body hbindings hbody := by
    have hmap : (bindings.map bareBinding).map (bindingHeight counted) =
        bindings.map (bindingHeight counted) := by
      apply map_map_of_forall
      rintro (n | p) hp
      · rfl
      · rw [bareBinding, bindingHeight, bindingHeight, bareParam_eq, hbindings p hp]
    rw [Expr.bare, Expr.height, Expr.height, bindingsHeight_eq, bindingsHeight_eq, bareBindings_eq,
      hmap, hbody]
  letIn span decls body hdecls hbody := by
    rw [Expr.bare, Expr.height, Expr.height, declsHeight_eq, declsHeight_eq, bareDecls_eq,
      map_map_of_forall hdecls, hbody]
  app span fn arg hfn harg := by rw [Expr.bare, Expr.height, Expr.height, hfn, harg]
  operation span operator left right hleft hright := by
    rw [Expr.bare, Expr.height, Expr.height, hleft, hright]
  dataType span header constructors hparams htype hconstructors := by
    rw [bareDecl, declHeight, declHeight, headerHeight_bare hparams htype, signaturesHeight_eq,
      signaturesHeight_eq, bareSignatures_eq, map_signatureHeight_bare hconstructors]
  emptyData span header hparams htype := by
    rw [bareDecl, declHeight, declHeight, headerHeight_bare hparams htype]
  recordType span header builder fields decls hparams htype hfields hdecls := by
    rw [bareDecl, declHeight, declHeight, headerHeight_bare hparams htype, signaturesHeight_eq,
      signaturesHeight_eq, bareSignatures_eq, map_signatureHeight_bare hfields, declsHeight_eq,
      declsHeight_eq, bareDecls_eq, map_map_of_forall hdecls]
  moduleBlock span name params decls hparams hdecls := by
    rw [bareDecl, declHeight, declHeight, paramsHeight_eq, paramsHeight_eq, bareParams_eq,
      map_paramHeight_bare hparams, declsHeight_eq, declsHeight_eq, bareDecls_eq,
      map_map_of_forall hdecls]
  importModule span kind name := by rw [bareDecl, declHeight, declHeight]
  ascription signature htype := by
    rw [bareDecl, declHeight_ascription, declHeight_ascription, bareSignature_eq, htype]
  clause span patterns isOperator withPatterns withExpr rhs locals hpatterns hwith hexpr hrhs
      hlocals := by
    simp only [bareDecl, declHeight, exprsHeight_eq, bareExprs_eq, map_map_of_forall hpatterns,
      map_map_of_forall hwith, optionHeight_eq, bareOption_eq, map_optionHeight_bare hexpr,
      map_optionHeight_bare hrhs, declsHeight_eq, bareDecls_eq, map_map_of_forall hlocals]
  fixity span fixity operators := by rw [bareDecl, declHeight, declHeight]

/-- Files that agree up to spans have one height. -/
theorem File.height_eq_of_bare {f g : File} (h : f.decls.map bareDecl = g.decls.map bareDecl) :
    f.height counted = g.height counted := by
  have hbare : ∀ ds : List (Decl Expr), declsHeight counted ds =
      highest ((ds.map bareDecl).map (declHeight counted)) := by
    intro ds
    rw [declsHeight_eq, map_map_of_forall fun d _ => (height_bare counted).decl d]
  rw [File.height, File.height, hbare, hbare, h]

end

end Offside
