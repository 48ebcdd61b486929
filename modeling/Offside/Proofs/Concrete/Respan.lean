-- SUMMARY: Induction over concrete trees, and trees with their spans changed or forgotten.
import Offside.Proofs.Concrete.Written

/-! # Concrete trees up to spans

Two trees are the same up to spans if they agree once every span is replaced by
one and the same. `Cases` is what a property of all trees has to satisfy, one
field for each constructor, so that a proof about trees is one case analysis
and not a family of mutual recursions. -/

namespace Offside

namespace Concrete

/-! ## Induction -/

/-- What it takes for `E` to hold of all expressions, `A` of all atoms and `D`
of all declarations. -/
structure Cases (E : Expr → Prop) (A : Atom → Prop) (D : Decl Expr → Prop) : Prop where
  run : ∀ span atoms, (∀ a ∈ atoms, A a) → E (.run span atoms)
  arrow : ∀ span domain codomain, (∀ a ∈ domain, A a) → E codomain → E (.arrow span domain codomain)
  bind : ∀ span binder bindings body, (∀ p, .typed p ∈ bindings → E p.type) → E body →
    E (.bind span binder bindings body)
  letIn : ∀ span decls body, (∀ d ∈ decls, D d) → E body → E (.letIn span decls body)
  leaf : ∀ l, A (.leaf l)
  paren : ∀ span e, E e → A (.paren span e)
  param : ∀ p, E p.type → A (.param p)
  record : ∀ span builder fields, (∀ f ∈ fields, E f.value) → A (.record span builder fields)
  tail : ∀ e, E e → A (.tail e)
  dataType : ∀ span header constructors, (∀ p ∈ header.params, E p.type) →
    (∀ e ∈ header.type, E e) → (∀ g ∈ constructors, E g.type) →
    D (.dataType span header constructors)
  emptyData : ∀ span header, (∀ p ∈ header.params, E p.type) → (∀ e ∈ header.type, E e) →
    D (.emptyData span header)
  recordType : ∀ span header builder fields decls, (∀ p ∈ header.params, E p.type) →
    (∀ e ∈ header.type, E e) → (∀ g ∈ fields, E g.type) → (∀ d ∈ decls, D d) →
    D (.recordType span header builder fields decls)
  moduleBlock : ∀ span name params decls, (∀ p ∈ params, E p.type) → (∀ d ∈ decls, D d) →
    D (.moduleBlock span name params decls)
  importModule : ∀ span kind name, D (.importModule span kind name)
  ascription : ∀ signature, E signature.type → D (.ascription signature)
  clause : ∀ span patterns isOperator withPatterns withExpr rhs locals, (∀ e ∈ patterns, E e) →
    (∀ e ∈ withPatterns, E e) → (∀ e ∈ withExpr, E e) → (∀ e ∈ rhs, E e) → (∀ d ∈ locals, D d) →
    D (.clause span patterns isOperator withPatterns withExpr rhs locals)
  fixity : ∀ span fixity operators, D (.fixity span fixity operators)

namespace Cases

variable {E : Expr → Prop} {A : Atom → Prop} {D : Decl Expr → Prop}

mutual

theorem expr (h : Cases E A D) : ∀ e, E e
  | .run span as => h.run span as (h.atoms as)
  | .arrow span as codomain => h.arrow span as codomain (h.atoms as) (h.expr codomain)
  | .bind span binder bs body => h.bind span binder bs body (h.bindings bs) (h.expr body)
  | .letIn span ds body => h.letIn span ds body (h.decls ds) (h.expr body)

theorem atoms (h : Cases E A D) : ∀ as : List Atom, ∀ a ∈ as, A a
  | [] => List.forall_mem_nil _
  | a :: as => List.forall_mem_cons.2 ⟨h.atom a, h.atoms as⟩

theorem atom (h : Cases E A D) : ∀ a, A a
  | .leaf l => h.leaf l
  | .paren span e => h.paren span e (h.expr e)
  | .param ⟨_, _, _, type⟩ => h.param _ (h.expr type)
  | .record span builder fields => h.record span builder fields (h.assignments fields)
  | .tail e => h.tail e (h.expr e)

theorem assignments (h : Cases E A D) : ∀ fs : List (Assignment Expr), ∀ f ∈ fs, E f.value
  | [] => List.forall_mem_nil _
  | ⟨_, _, value⟩ :: fs => List.forall_mem_cons.2 ⟨h.expr value, h.assignments fs⟩

theorem params (h : Cases E A D) : ∀ ps : List (Param Expr), ∀ p ∈ ps, E p.type
  | [] => List.forall_mem_nil _
  | ⟨_, _, _, type⟩ :: ps => List.forall_mem_cons.2 ⟨h.expr type, h.params ps⟩

theorem bindings (h : Cases E A D) : ∀ bs : List (Binding Expr), ∀ p, .typed p ∈ bs → E p.type
  | [] => fun _ hp => nomatch hp
  | .name _ :: bs => fun p hp => h.bindings bs p (by simpa using hp)
  | .typed ⟨_, _, _, type⟩ :: bs => fun p hp => by
    rcases List.mem_cons.1 hp with heq | hp
    · obtain rfl := Binding.typed.inj heq
      exact h.expr type
    · exact h.bindings bs p hp

theorem option (h : Cases E A D) : ∀ o : Option Expr, ∀ e ∈ o, E e
  | none => fun _ he => nomatch he
  | some e => fun e' he => by
    obtain rfl : e = e' := by simpa using he
    exact h.expr e

theorem exprs (h : Cases E A D) : ∀ es : List Expr, ∀ e ∈ es, E e
  | [] => List.forall_mem_nil _
  | e :: es => List.forall_mem_cons.2 ⟨h.expr e, h.exprs es⟩

theorem signatures (h : Cases E A D) : ∀ gs : List (Signature Expr), ∀ g ∈ gs, E g.type
  | [] => List.forall_mem_nil _
  | ⟨_, _, type⟩ :: gs => List.forall_mem_cons.2 ⟨h.expr type, h.signatures gs⟩

theorem decl (h : Cases E A D) : ∀ d, D d
  | .dataType span ⟨_, ps, type⟩ constructors =>
    h.dataType span _ constructors (h.params ps) (h.option type) (h.signatures constructors)
  | .emptyData span ⟨_, ps, type⟩ => h.emptyData span _ (h.params ps) (h.option type)
  | .recordType span ⟨_, ps, type⟩ builder fields ds =>
    h.recordType span _ builder fields ds (h.params ps) (h.option type) (h.signatures fields)
      (h.decls ds)
  | .moduleBlock span name ps ds => h.moduleBlock span name ps ds (h.params ps) (h.decls ds)
  | .importModule span kind name => h.importModule span kind name
  | .ascription ⟨_, _, type⟩ => h.ascription _ (h.expr type)
  | .clause span patterns isOperator withPatterns withExpr rhs locals =>
    h.clause span patterns isOperator withPatterns withExpr rhs locals (h.exprs patterns)
      (h.exprs withPatterns) (h.option withExpr) (h.option rhs) (h.decls locals)
  | .fixity span fixity operators => h.fixity span fixity operators

theorem decls (h : Cases E A D) : ∀ ds : List (Decl Expr), ∀ d ∈ ds, D d
  | [] => List.forall_mem_nil _
  | d :: ds => List.forall_mem_cons.2 ⟨h.decl d, h.decls ds⟩

end

end Cases

/-! ## Changing spans -/

end Concrete

/-- A change of spans: those of runs, those of qualified names, and all others. -/
structure Respan where
  run : Span → Span
  name : Span → Span
  other : Span → Span

namespace Respan

/-- Forget all spans. -/
def bare : Respan := ⟨fun _ => default, fun _ => default, fun _ => default⟩

/-- Forget the spans that follow from those of the parts: of runs and of
qualified names. -/
def loose : Respan := ⟨fun _ => default, fun _ => default, id⟩

@[simp] theorem bare_run (span : Span) : bare.run span = default := rfl

@[simp] theorem bare_name (span : Span) : bare.name span = default := rfl

@[simp] theorem bare_other (span : Span) : bare.other span = default := rfl

end Respan

section

variable (f : Respan)

def Name.respan (n : Name) : Name := ⟨n.text, f.other n.span⟩

def QualifiedName.respan (q : QualifiedName) : QualifiedName :=
  ⟨f.name q.span, q.segments.map (Name.respan f)⟩

def Leaf.respan : Leaf → Leaf
  | name q => .name (q.respan f)
  | hole span => .hole (f.other span)
  | unit span => .unit (f.other span)
  | type span => .type (f.other span)
  | integer span value => .integer (f.other span) value

namespace Concrete

mutual

/-- An expression with its spans changed. -/
def exprRespan : Expr → Expr
  | .run span atoms => .run (f.run span) (atomsRespan atoms)
  | .arrow span domain codomain =>
    .arrow (f.other span) (atomsRespan domain) (exprRespan codomain)
  | .bind span binder bindings body =>
    .bind (f.other span) binder (bindingsRespan bindings) (exprRespan body)
  | .letIn span decls body => .letIn (f.other span) (declsRespan decls) (exprRespan body)

def atomsRespan : List Atom → List Atom
  | [] => []
  | a :: as => atomRespan a :: atomsRespan as

def atomRespan : Atom → Atom
  | .leaf l => .leaf (l.respan f)
  | .paren span e => .paren (f.other span) (exprRespan e)
  | .param p => .param (paramRespan p)
  | .record span builder fields =>
    .record (f.other span) (builder.map (QualifiedName.respan f)) (assignmentsRespan fields)
  | .tail e => .tail (exprRespan e)

def assignmentsRespan : List (Assignment Expr) → List (Assignment Expr)
  | [] => []
  | ⟨span, name, value⟩ :: fs =>
    ⟨f.other span, name.respan f, exprRespan value⟩ :: assignmentsRespan fs

def paramRespan : Param Expr → Param Expr
  | ⟨span, isImplicit, names, type⟩ =>
    ⟨f.other span, isImplicit, names.map (Name.respan f), exprRespan type⟩

def paramsRespan : List (Param Expr) → List (Param Expr)
  | [] => []
  | p :: ps => paramRespan p :: paramsRespan ps

def bindingsRespan : List (Binding Expr) → List (Binding Expr)
  | [] => []
  | .name n :: bs => .name (n.respan f) :: bindingsRespan bs
  | .typed p :: bs => .typed (paramRespan p) :: bindingsRespan bs

def optionRespan : Option Expr → Option Expr
  | none => none
  | some e => some (exprRespan e)

def exprsRespan : List Expr → List Expr
  | [] => []
  | e :: es => exprRespan e :: exprsRespan es

def signatureRespan : Signature Expr → Signature Expr
  | ⟨span, names, type⟩ => ⟨f.other span, names.map (Name.respan f), exprRespan type⟩

def signaturesRespan : List (Signature Expr) → List (Signature Expr)
  | [] => []
  | g :: gs => signatureRespan g :: signaturesRespan gs

def headerRespan : Header Expr → Header Expr
  | ⟨name, params, type⟩ => ⟨name.respan f, paramsRespan params, optionRespan type⟩

/-- A declaration with its spans changed. -/
def declRespan : Decl Expr → Decl Expr
  | .dataType span header constructors =>
    .dataType (f.other span) (headerRespan header) (signaturesRespan constructors)
  | .emptyData span header => .emptyData (f.other span) (headerRespan header)
  | .recordType span header builder fields decls =>
    .recordType (f.other span) (headerRespan header) (builder.map (Name.respan f))
      (signaturesRespan fields) (declsRespan decls)
  | .moduleBlock span name params decls =>
    .moduleBlock (f.other span) (name.respan f) (paramsRespan params) (declsRespan decls)
  | .importModule span kind name => .importModule (f.other span) kind (name.respan f)
  | .ascription signature => .ascription (signatureRespan signature)
  | .clause span patterns isOperator withPatterns withExpr rhs locals =>
    .clause (f.other span) (exprsRespan patterns) isOperator (exprsRespan withPatterns)
      (optionRespan withExpr) (optionRespan rhs) (declsRespan locals)
  | .fixity span fixity operators =>
    .fixity (f.other span) fixity (operators.map (Name.respan f))

def declsRespan : List (Decl Expr) → List (Decl Expr)
  | [] => []
  | d :: ds => declRespan d :: declsRespan ds

end

@[simp] theorem atomsRespan_eq (as : List Atom) : atomsRespan f as = as.map (atomRespan f) := by
  induction as with
  | nil => rfl
  | cons a as ih => rw [atomsRespan, ih, List.map_cons]

@[simp] theorem assignmentsRespan_eq (fs : List (Assignment Expr)) :
    assignmentsRespan f fs =
      fs.map fun a => ⟨f.other a.span, a.name.respan f, exprRespan f a.value⟩ := by
  induction fs with
  | nil => rfl
  | cons a fs ih => rw [assignmentsRespan, ih, List.map_cons]

theorem paramRespan_eq (p : Param Expr) :
    paramRespan f p =
      ⟨f.other p.span, p.isImplicit, p.names.map (Name.respan f), exprRespan f p.type⟩ := by
  cases p
  rw [paramRespan]

@[simp] theorem paramsRespan_eq (ps : List (Param Expr)) :
    paramsRespan f ps = ps.map (paramRespan f) := by
  induction ps with
  | nil => rfl
  | cons p ps ih => rw [paramsRespan, ih, List.map_cons]

/-- A binding with its spans changed. -/
def bindingRespan : Binding Expr → Binding Expr
  | .name n => .name (n.respan f)
  | .typed p => .typed (paramRespan f p)

@[simp] theorem bindingsRespan_eq (bs : List (Binding Expr)) :
    bindingsRespan f bs = bs.map (bindingRespan f) := by
  induction bs with
  | nil => rfl
  | cons b bs ih => cases b <;> rw [bindingsRespan, ih, List.map_cons, bindingRespan]

@[simp] theorem optionRespan_eq (o : Option Expr) : optionRespan f o = o.map (exprRespan f) := by
  cases o <;> rw [optionRespan] <;> rfl

@[simp] theorem exprsRespan_eq (es : List Expr) : exprsRespan f es = es.map (exprRespan f) := by
  induction es with
  | nil => rfl
  | cons e es ih => rw [exprsRespan, ih, List.map_cons]

theorem signatureRespan_eq (g : Signature Expr) :
    signatureRespan f g =
      ⟨f.other g.span, g.names.map (Name.respan f), exprRespan f g.type⟩ := by
  cases g
  rw [signatureRespan]

@[simp] theorem signaturesRespan_eq (gs : List (Signature Expr)) :
    signaturesRespan f gs = gs.map (signatureRespan f) := by
  induction gs with
  | nil => rfl
  | cons g gs ih => rw [signaturesRespan, ih, List.map_cons]

theorem headerRespan_eq (h : Header Expr) :
    headerRespan f h =
      ⟨h.name.respan f, h.params.map (paramRespan f), h.type.map (exprRespan f)⟩ := by
  cases h
  rw [headerRespan, paramsRespan_eq, optionRespan_eq]

@[simp] theorem declsRespan_eq (ds : List (Decl Expr)) :
    declsRespan f ds = ds.map (declRespan f) := by
  induction ds with
  | nil => rfl
  | cons d ds ih => rw [declsRespan, ih, List.map_cons]

end Concrete

end

end Offside
