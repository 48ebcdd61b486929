-- SUMMARY: Induction over trees with operators resolved, and what does not depend on their spans.
import Offside.Expr.Dump
import Offside.Expr.Print
import Offside.Proofs.Concrete.Respan

/-! # Trees with operators resolved, up to spans

`Expr.Cases` is what a property of all trees has to satisfy. `Expr.bare` forgets
where a tree stood, and neither its surface form nor its dump shows that. -/

namespace Offside

/-! ## Induction -/

/-- What it takes for `E` to hold of all expressions and `D` of all
declarations. -/
structure Expr.Cases (E : Expr → Prop) (D : Decl Expr → Prop) : Prop where
  leaf : ∀ l, E (.leaf l)
  paren : ∀ span e, E e → E (.paren span e)
  record : ∀ span builder fields, (∀ f ∈ fields, E f.value) → E (.record span builder fields)
  arrow : ∀ span domain codomain, E domain → E codomain → E (.arrow span domain codomain)
  pi : ∀ span params codomain, (∀ p ∈ params, E p.type) → E codomain → E (.pi span params codomain)
  bind : ∀ span binder bindings body, (∀ p, .typed p ∈ bindings → E p.type) → E body →
    E (.bind span binder bindings body)
  letIn : ∀ span decls body, (∀ d ∈ decls, D d) → E body → E (.letIn span decls body)
  app : ∀ span fn arg, E fn → E arg → E (.app span fn arg)
  operation : ∀ span operator left right, E left → E right → E (.operation span operator left right)
  dataType : ∀ span header constructors, (∀ p ∈ header.params, E p.type) →
    (∀ e ∈ header.type, E e) → (∀ g ∈ constructors, E g.type) →
    D (.dataType span header constructors)
  emptyData : ∀ span header, (∀ p ∈ header.params, E p.type) → (∀ e ∈ header.type, E e) →
    D (.emptyData span header)
  recordType : ∀ span header builder fields decls, (∀ p ∈ header.params, E p.type) →
    (∀ e ∈ header.type, E e) → (∀ g ∈ fields, E g.type) → (∀ d ∈ decls, D d) →
    D (.recordType span header builder fields decls)
  moduleBlock : ∀ span name params decls, (∀ p ∈ params, E p.type) → (∀ d ∈ decls, D d) →
    D (.moduleBlock span name params decls)
  importModule : ∀ span kind name, D (.importModule span kind name)
  ascription : ∀ signature, E signature.type → D (.ascription signature)
  clause : ∀ span patterns isOperator withPatterns withExpr rhs locals, (∀ e ∈ patterns, E e) →
    (∀ e ∈ withPatterns, E e) → (∀ e ∈ withExpr, E e) → (∀ e ∈ rhs, E e) → (∀ d ∈ locals, D d) →
    D (.clause span patterns isOperator withPatterns withExpr rhs locals)
  fixity : ∀ span fixity operators, D (.fixity span fixity operators)

namespace Expr.Cases

variable {E : Expr → Prop} {D : Decl Expr → Prop}

mutual

theorem expr (h : Cases E D) : ∀ e, E e
  | .leaf l => h.leaf l
  | .paren span e => h.paren span e (h.expr e)
  | .record span builder fields => h.record span builder fields (h.assignments fields)
  | .arrow span domain codomain => h.arrow span domain codomain (h.expr domain) (h.expr codomain)
  | .pi span ps codomain => h.pi span ps codomain (h.params ps) (h.expr codomain)
  | .bind span binder bs body => h.bind span binder bs body (h.bindings bs) (h.expr body)
  | .letIn span ds body => h.letIn span ds body (h.decls ds) (h.expr body)
  | .app span fn arg => h.app span fn arg (h.expr fn) (h.expr arg)
  | .operation span operator left right =>
    h.operation span operator left right (h.expr left) (h.expr right)

theorem assignments (h : Cases E D) : ∀ fs : List (Assignment Expr), ∀ f ∈ fs, E f.value
  | [] => List.forall_mem_nil _
  | ⟨_, _, value⟩ :: fs => List.forall_mem_cons.2 ⟨h.expr value, h.assignments fs⟩

theorem params (h : Cases E D) : ∀ ps : List (Param Expr), ∀ p ∈ ps, E p.type
  | [] => List.forall_mem_nil _
  | ⟨_, _, _, type⟩ :: ps => List.forall_mem_cons.2 ⟨h.expr type, h.params ps⟩

theorem bindings (h : Cases E D) : ∀ bs : List (Binding Expr), ∀ p, .typed p ∈ bs → E p.type
  | [] => fun _ hp => nomatch hp
  | .name _ :: bs => fun p hp => h.bindings bs p (by simpa using hp)
  | .typed ⟨_, _, _, type⟩ :: bs => fun p hp => by
    rcases List.mem_cons.1 hp with heq | hp
    · obtain rfl := Binding.typed.inj heq
      exact h.expr type
    · exact h.bindings bs p hp

theorem option (h : Cases E D) : ∀ o : Option Expr, ∀ e ∈ o, E e
  | none => fun _ he => nomatch he
  | some e => fun e' he => by
    obtain rfl : e = e' := by simpa using he
    exact h.expr e

theorem exprs (h : Cases E D) : ∀ es : List Expr, ∀ e ∈ es, E e
  | [] => List.forall_mem_nil _
  | e :: es => List.forall_mem_cons.2 ⟨h.expr e, h.exprs es⟩

theorem signatures (h : Cases E D) : ∀ gs : List (Signature Expr), ∀ g ∈ gs, E g.type
  | [] => List.forall_mem_nil _
  | ⟨_, _, type⟩ :: gs => List.forall_mem_cons.2 ⟨h.expr type, h.signatures gs⟩

theorem decl (h : Cases E D) : ∀ d, D d
  | .dataType span ⟨_, ps, type⟩ constructors =>
    h.dataType span _ constructors (h.params ps) (h.option type) (h.signatures constructors)
  | .emptyData span ⟨_, ps, type⟩ => h.emptyData span _ (h.params ps) (h.option type)
  | .recordType span ⟨_, ps, type⟩ builder fields ds =>
    h.recordType span _ builder fields ds (h.params ps) (h.option type) (h.signatures fields)
      (h.decls ds)
  | .moduleBlock span name ps ds => h.moduleBlock span name ps ds (h.params ps) (h.decls ds)
  | .importModule span kind name => h.importModule span kind name
  | .ascription ⟨_, _, type⟩ => h.ascription _ (h.expr type)
  | .clause span patterns isOperator withPatterns withExpr rhs locals =>
    h.clause span patterns isOperator withPatterns withExpr rhs locals (h.exprs patterns)
      (h.exprs withPatterns) (h.option withExpr) (h.option rhs) (h.decls locals)
  | .fixity span fixity operators => h.fixity span fixity operators

theorem decls (h : Cases E D) : ∀ ds : List (Decl Expr), ∀ d ∈ ds, D d
  | [] => List.forall_mem_nil _
  | d :: ds => List.forall_mem_cons.2 ⟨h.decl d, h.decls ds⟩

end

end Expr.Cases

/-! ## Forgetting spans -/

mutual

/-- An expression without its spans. -/
def Expr.bare : Expr → Expr
  | .leaf l => .leaf (l.respan .bare)
  | .paren _ e => .paren default e.bare
  | .record _ builder fields =>
    .record default (builder.map (QualifiedName.respan .bare)) (bareAssignments fields)
  | .arrow _ domain codomain => .arrow default domain.bare codomain.bare
  | .pi _ params codomain => .pi default (bareParams params) codomain.bare
  | .bind _ binder bindings body => .bind default binder (bareBindings bindings) body.bare
  | .letIn _ decls body => .letIn default (bareDecls decls) body.bare
  | .app _ fn arg => .app default fn.bare arg.bare
  | .operation _ operator left right =>
    .operation default (operator.respan .bare) left.bare right.bare

def bareAssignments : List (Assignment Expr) → List (Assignment Expr)
  | [] => []
  | ⟨_, name, value⟩ :: fs => ⟨default, name.respan .bare, value.bare⟩ :: bareAssignments fs

def bareParam : Param Expr → Param Expr
  | ⟨_, isImplicit, names, type⟩ =>
    ⟨default, isImplicit, names.map (Name.respan .bare), type.bare⟩

def bareParams : List (Param Expr) → List (Param Expr)
  | [] => []
  | p :: ps => bareParam p :: bareParams ps

def bareBindings : List (Binding Expr) → List (Binding Expr)
  | [] => []
  | .name n :: bs => .name (n.respan .bare) :: bareBindings bs
  | .typed p :: bs => .typed (bareParam p) :: bareBindings bs

def bareOption : Option Expr → Option Expr
  | none => none
  | some e => some e.bare

def bareExprs : List Expr → List Expr
  | [] => []
  | e :: es => e.bare :: bareExprs es

def bareSignature : Signature Expr → Signature Expr
  | ⟨_, names, type⟩ => ⟨default, names.map (Name.respan .bare), type.bare⟩

def bareSignatures : List (Signature Expr) → List (Signature Expr)
  | [] => []
  | g :: gs => bareSignature g :: bareSignatures gs

def bareHeader : Header Expr → Header Expr
  | ⟨name, params, type⟩ => ⟨name.respan .bare, bareParams params, bareOption type⟩

/-- A declaration without its spans. -/
def bareDecl : Decl Expr → Decl Expr
  | .dataType _ header constructors =>
    .dataType default (bareHeader header) (bareSignatures constructors)
  | .emptyData _ header => .emptyData default (bareHeader header)
  | .recordType _ header builder fields decls =>
    .recordType default (bareHeader header) (builder.map (Name.respan .bare))
      (bareSignatures fields) (bareDecls decls)
  | .moduleBlock _ name params decls =>
    .moduleBlock default (name.respan .bare) (bareParams params) (bareDecls decls)
  | .importModule _ kind name => .importModule default kind (name.respan .bare)
  | .ascription signature => .ascription (bareSignature signature)
  | .clause _ patterns isOperator withPatterns withExpr rhs locals =>
    .clause default (bareExprs patterns) isOperator (bareExprs withPatterns) (bareOption withExpr)
      (bareOption rhs) (bareDecls locals)
  | .fixity _ fixity operators => .fixity default fixity (operators.map (Name.respan .bare))

def bareDecls : List (Decl Expr) → List (Decl Expr)
  | [] => []
  | d :: ds => bareDecl d :: bareDecls ds

end

@[simp] theorem bareAssignments_eq (fs : List (Assignment Expr)) :
    bareAssignments fs = fs.map fun f => ⟨default, f.name.respan .bare, f.value.bare⟩ := by
  induction fs with
  | nil => rfl
  | cons f fs ih => rw [bareAssignments, ih, List.map_cons]

theorem bareParam_eq (p : Param Expr) :
    bareParam p = ⟨default, p.isImplicit, p.names.map (Name.respan .bare), p.type.bare⟩ := by
  cases p
  rw [bareParam]

@[simp] theorem bareParams_eq (ps : List (Param Expr)) : bareParams ps = ps.map bareParam := by
  induction ps with
  | nil => rfl
  | cons p ps ih => rw [bareParams, ih, List.map_cons]

/-- A binding without its spans. -/
def bareBinding : Binding Expr → Binding Expr
  | .name n => .name (n.respan .bare)
  | .typed p => .typed (bareParam p)

@[simp] theorem bareBindings_eq (bs : List (Binding Expr)) :
    bareBindings bs = bs.map bareBinding := by
  induction bs with
  | nil => rfl
  | cons b bs ih => cases b <;> rw [bareBindings, ih, List.map_cons, bareBinding]

@[simp] theorem bareOption_eq (o : Option Expr) : bareOption o = o.map Expr.bare := by
  cases o <;> rw [bareOption] <;> rfl

@[simp] theorem bareExprs_eq (es : List Expr) : bareExprs es = es.map Expr.bare := by
  induction es with
  | nil => rfl
  | cons e es ih => rw [bareExprs, ih, List.map_cons]

theorem bareSignature_eq (g : Signature Expr) :
    bareSignature g = ⟨default, g.names.map (Name.respan .bare), g.type.bare⟩ := by
  cases g
  rw [bareSignature]

@[simp] theorem bareSignatures_eq (gs : List (Signature Expr)) :
    bareSignatures gs = gs.map bareSignature := by
  induction gs with
  | nil => rfl
  | cons g gs ih => rw [bareSignatures, ih, List.map_cons]

theorem bareHeader_eq (h : Header Expr) :
    bareHeader h = ⟨h.name.respan .bare, h.params.map bareParam, h.type.map Expr.bare⟩ := by
  cases h
  rw [bareHeader, bareParams_eq, bareOption_eq]

@[simp] theorem bareDecls_eq (ds : List (Decl Expr)) : bareDecls ds = ds.map bareDecl := by
  induction ds with
  | nil => rfl
  | cons d ds ih => rw [bareDecls, ih, List.map_cons]

/-! ## Names and leaves -/

section

variable (f : Respan)

@[simp] theorem Name.text_respan (n : Name) : (n.respan f).text = n.text := rfl

@[simp] theorem Name.listText_respan (ns : List Name) :
    listText (ns.map (Name.respan f)) = listText ns := by
  rw [listText, List.map_map]
  rfl

@[simp] theorem QualifiedName.text_respan (q : QualifiedName) : (q.respan f).text = q.text := by
  rw [text, respan, List.map_map]
  rfl

@[simp] theorem Leaf.text_respan (l : Leaf) : (l.respan f).text = l.text := by
  cases l with
  | name q => exact q.text_respan f
  | hole | unit | type | integer => rfl

end

/-! ## Surface form -/

@[simp] theorem printAssignments_eq (fs : List (Assignment Expr)) :
    printAssignments fs = fs.map fun f => f.name.text ++ " = " ++ f.value.print := by
  induction fs with
  | nil => rfl
  | cons f fs ih => rw [printAssignments, ih, List.map_cons]

theorem printParam_eq (p : Param Expr) :
    printParam p = if p.isImplicit then
        "\x7b" ++ (Name.listText p.names ++ " : " ++ p.type.print) ++ "\x7d"
      else "(" ++ (Name.listText p.names ++ " : " ++ p.type.print) ++ ")" := by
  cases p
  rw [printParam]

@[simp] theorem printParams_eq (ps : List (Param Expr)) : printParams ps = ps.map printParam := by
  induction ps with
  | nil => rfl
  | cons p ps ih => rw [printParams, ih, List.map_cons]

/-- A binding in surface form. -/
def printBinding : Binding Expr → String
  | .name n => n.text
  | .typed p => printParam p

@[simp] theorem printBindings_eq (bs : List (Binding Expr)) :
    printBindings bs = bs.map printBinding := by
  induction bs with
  | nil => rfl
  | cons b bs ih => cases b <;> rw [printBindings, ih, List.map_cons, printBinding]

@[simp] theorem printExprs_eq (es : List Expr) : printExprs es = es.map Expr.print := by
  induction es with
  | nil => rfl
  | cons e es ih => rw [printExprs, ih, List.map_cons]

/-- A constructor, field or ascription in surface form. -/
def printSignature (g : Signature Expr) : String :=
  Name.listText g.names ++ " : " ++ g.type.print

@[simp] theorem printSignatures_eq (gs : List (Signature Expr)) :
    printSignatures gs = gs.map printSignature := by
  induction gs with
  | nil => rfl
  | cons g gs ih => rw [printSignatures, ih, List.map_cons, printSignature]

theorem printHeader_eq (h : Header Expr) :
    printHeader h = " ".intercalate (h.name.text :: h.params.map printParam) ++
      printOption " : " h.type := by
  cases h
  rw [printHeader, printParams_eq]

/-- A declaration in one line. -/
def printInline (d : Decl Expr) : String := (printDecl d).inline

@[simp] theorem printDecls_eq (ds : List (Decl Expr)) : printDecls ds = ds.map printInline := by
  induction ds with
  | nil => rfl
  | cons d ds ih => rw [printDecls, ih, List.map_cons, printInline]

@[simp] theorem declsLines_eq (ds : List (Decl Expr)) : declsLines ds = ds.flatMap Decl.lines := by
  induction ds with
  | nil => rfl
  | cons d ds ih => rw [declsLines, ih, List.flatMap_cons]

/-- What does not change along `b` is the same of all members. -/
theorem map_map_of_forall {α β : Type} {b : α → α} {g : α → β} {xs : List α}
    (h : ∀ x ∈ xs, g (b x) = g x) : (xs.map b).map g = xs.map g := by
  rw [List.map_map]
  exact List.map_congr_left h

theorem printParam_bare {p : Param Expr} (h : p.type.bare.print = p.type.print) :
    printParam (bareParam p) = printParam p := by
  simp [printParam_eq, bareParam_eq, h]

theorem printSignature_bare {g : Signature Expr} (h : g.type.bare.print = g.type.print) :
    printSignature (bareSignature g) = printSignature g := by
  simp [printSignature, bareSignature_eq, h]

theorem printOption_bare {before : String} {o : Option Expr}
    (h : ∀ e ∈ o, e.bare.print = e.print) :
    printOption before (o.map Expr.bare) = printOption before o := by
  cases o with
  | none => rfl
  | some e => simp [printOption, h e rfl]

theorem printHeader_bare {header : Header Expr}
    (hparams : ∀ p ∈ header.params, p.type.bare.print = p.type.print)
    (htype : ∀ e ∈ header.type, e.bare.print = e.print) :
    printHeader (bareHeader header) = printHeader header := by
  rw [printHeader_eq, printHeader_eq, bareHeader_eq, printOption_bare htype,
    map_map_of_forall fun p hp => printParam_bare (hparams p hp)]
  rfl

theorem map_printInline_bare {ds : List (Decl Expr)}
    (h : ∀ d ∈ ds, printDecl (bareDecl d) = printDecl d) :
    (ds.map bareDecl).map printInline = ds.map printInline :=
  map_map_of_forall fun d hd => by rw [printInline, printInline, h d hd]

theorem flatMap_lines_bare {ds : List (Decl Expr)} (h : ∀ d ∈ ds, (bareDecl d).lines = d.lines) :
    (ds.map bareDecl).flatMap Decl.lines = ds.flatMap Decl.lines := by
  rw [List.flatMap_def, map_map_of_forall h, ← List.flatMap_def]

/-- The surface form does not show spans. -/
theorem print_bare : Expr.Cases (fun e => e.bare.print = e.print) (fun d =>
    printDecl (bareDecl d) = printDecl d ∧ (bareDecl d).lines = d.lines) where
  leaf l := by rw [Expr.bare, Expr.print, Expr.print, Leaf.text_respan]
  paren span e he := by rw [Expr.bare, Expr.print, Expr.print, he]
  record span builder fields hfields := by
    have hbuilder : (builder.map (QualifiedName.respan .bare)).toList.map QualifiedName.text =
        builder.toList.map QualifiedName.text := by
      cases builder <;> simp
    have hmap : (fields.map fun f => (⟨default, f.name.respan .bare, f.value.bare⟩ : Assignment Expr)).map
        (fun f => f.name.text ++ " = " ++ f.value.print) =
        fields.map fun f => f.name.text ++ " = " ++ f.value.print := by
      apply map_map_of_forall
      intro f hf
      simp [hfields f hf]
    rw [Expr.bare, Expr.print, Expr.print, printAssignments_eq, printAssignments_eq,
      bareAssignments_eq, hmap, hbuilder]
  arrow span domain codomain hdomain hcodomain := by
    rw [Expr.bare, Expr.print, Expr.print, hdomain, hcodomain]
  pi span params codomain hparams hcodomain := by
    rw [Expr.bare, Expr.print, Expr.print, hcodomain, printParams_eq, printParams_eq, bareParams_eq,
      map_map_of_forall fun p hp => printParam_bare (hparams p hp)]
  bind span binder bindings body hbindings hbody := by
    have hmap : (bindings.map bareBinding).map printBinding = bindings.map printBinding := by
      apply map_map_of_forall
      rintro (n | p) hp
      · rfl
      · exact printParam_bare (hbindings p hp)
    rw [Expr.bare, Expr.print, Expr.print, hbody, printBindings_eq, printBindings_eq,
      bareBindings_eq, hmap]
  letIn span decls body hdecls hbody := by
    rw [Expr.bare, Expr.print, Expr.print, hbody, printDecls_eq, printDecls_eq, bareDecls_eq,
      map_printInline_bare fun d hd => (hdecls d hd).1]
  app span fn arg hfn harg := by rw [Expr.bare, Expr.print, Expr.print, hfn, harg]
  operation span operator left right hleft hright := by
    rw [Expr.bare, Expr.print, Expr.print, hleft, hright, Name.text_respan]
  dataType span header constructors hparams htype hconstructors := by
    have hmap : (constructors.map bareSignature).map printSignature =
        constructors.map printSignature :=
      map_map_of_forall fun g hg => printSignature_bare (hconstructors g hg)
    simp only [bareDecl, printDecl, Decl.lines, printSignatures_eq, bareSignatures_eq, hmap,
      printHeader_bare hparams htype, and_self]
  emptyData span header hparams htype := by
    simp only [bareDecl, printDecl, Decl.lines, printHeader_bare hparams htype, and_self]
  recordType span header builder fields decls hparams htype hfields hdecls := by
    have hbuilder : (builder.map (Name.respan .bare)).toList.map ("constructor " ++ ·.text) =
        builder.toList.map ("constructor " ++ ·.text) := by
      cases builder <;> simp
    have hmap : (fields.map bareSignature).map printSignature = fields.map printSignature :=
      map_map_of_forall fun g hg => printSignature_bare (hfields g hg)
    simp only [bareDecl, printDecl, Decl.lines, printSignatures_eq, bareSignatures_eq, hmap,
      printHeader_bare hparams htype, hbuilder, printDecls_eq, declsLines_eq, bareDecls_eq,
      map_printInline_bare fun d hd => (hdecls d hd).1, flatMap_lines_bare fun d hd => (hdecls d hd).2,
      and_self]
  moduleBlock span name params decls hparams hdecls := by
    have hmap : (params.map bareParam).map printParam = params.map printParam :=
      map_map_of_forall fun p hp => printParam_bare (hparams p hp)
    simp only [bareDecl, printDecl, Decl.lines, QualifiedName.text_respan, printParams_eq,
      bareParams_eq, hmap, printDecls_eq, declsLines_eq, bareDecls_eq,
      map_printInline_bare fun d hd => (hdecls d hd).1, flatMap_lines_bare fun d hd => (hdecls d hd).2,
      and_self]
  importModule span kind name := by
    simp only [bareDecl, printDecl, Decl.lines, QualifiedName.text_respan, and_self]
  ascription signature htype := by
    have hsignature := printSignature_bare htype
    cases signature
    simp only [printSignature, bareSignature] at hsignature
    simp only [bareDecl, bareSignature, printDecl, Decl.lines, hsignature, and_self]
  clause span patterns isOperator withPatterns withExpr rhs locals hpatterns hwith hexpr hrhs
      hlocals := by
    simp only [bareDecl, printDecl, Decl.lines, printExprs_eq, bareExprs_eq,
      map_map_of_forall hpatterns, map_map_of_forall hwith, bareOption_eq, printOption_bare hexpr,
      printOption_bare hrhs, bareDecls_eq, List.isEmpty_map, printDecls_eq, declsLines_eq,
      map_printInline_bare fun d hd => (hlocals d hd).1,
      flatMap_lines_bare fun d hd => (hlocals d hd).2, and_self]
  fixity span fixity operators := by
    simp only [bareDecl, printDecl, Decl.lines, Name.listText_respan, and_self]

/-- Files that agree up to spans have one surface form. -/
theorem File.print_eq_of_bare {f g : File} (h : f.decls.map bareDecl = g.decls.map bareDecl) :
    f.print = g.print := by
  have hlines : ∀ ds : List (Decl Expr), declsLines ds = (ds.map bareDecl).flatMap Decl.lines := by
    intro ds
    rw [declsLines_eq, flatMap_lines_bare fun d _ => (print_bare.decl d).2]
  rw [File.print, File.print, hlines, hlines, h]

/-! ## Dumps -/

@[simp] theorem dumpAssignments_eq (fs : List (Assignment Expr)) :
    dumpAssignments fs = fs.map fun f => parenthesised [f.name.text, dumpExpr false f.value] := by
  induction fs with
  | nil => rfl
  | cons f fs ih => rw [dumpAssignments, ih, List.map_cons]

@[simp] theorem dumpParams_eq (ps : List (Param Expr)) : dumpParams ps = ps.map dumpParam := by
  induction ps with
  | nil => rfl
  | cons p ps ih => rw [dumpParams, ih, List.map_cons]

/-- The dump of a binding. -/
def dumpBinding : Binding Expr → String
  | .name n => n.text
  | .typed p => dumpParam p

@[simp] theorem dumpBindings_eq (bs : List (Binding Expr)) :
    dumpBindings bs = bs.map dumpBinding := by
  induction bs with
  | nil => rfl
  | cons b bs ih => cases b <;> rw [dumpBindings, ih, List.map_cons, dumpBinding]

@[simp] theorem dumpExprs_eq (es : List Expr) : dumpExprs es = es.map (dumpExpr false) := by
  induction es with
  | nil => rfl
  | cons e es ih => rw [dumpExprs, ih, List.map_cons]

/-- The dump of a constructor or field, without parentheses. -/
def dumpSignature (g : Signature Expr) : String :=
  Name.listText g.names ++ " : " ++ dumpExpr false g.type

@[simp] theorem dumpSignatures_eq (gs : List (Signature Expr)) :
    dumpSignatures gs = gs.map dumpSignature := by
  induction gs with
  | nil => rfl
  | cons g gs ih => rw [dumpSignatures, ih, List.map_cons, dumpSignature]

@[simp] theorem dumpDecls_eq (ds : List (Decl Expr)) : dumpDecls ds = ds.map dumpDecl := by
  induction ds with
  | nil => rfl
  | cons d ds ih => rw [dumpDecls, ih, List.map_cons]

theorem dumpParam_bare {p : Param Expr} (h : ∀ b, dumpExpr b p.type.bare = dumpExpr b p.type) :
    dumpParam (bareParam p) = dumpParam p := by
  cases p
  simp only [bareParam, dumpParam, Name.listText_respan, h]

theorem dumpSignature_bare {g : Signature Expr}
    (h : ∀ b, dumpExpr b g.type.bare = dumpExpr b g.type) :
    dumpSignature (bareSignature g) = dumpSignature g := by
  simp [dumpSignature, bareSignature_eq, h]

theorem dumpOption_bare {w : String} {o : Option Expr}
    (h : ∀ e ∈ o, ∀ b, dumpExpr b e.bare = dumpExpr b e) :
    dumpOption w (o.map Expr.bare) = dumpOption w o := by
  cases o with
  | none => rfl
  | some e => simp [dumpOption, h e rfl]

theorem dumpHeader_bare {header : Header Expr}
    (hparams : ∀ p ∈ header.params, ∀ b, dumpExpr b p.type.bare = dumpExpr b p.type)
    (htype : ∀ e ∈ header.type, ∀ b, dumpExpr b e.bare = dumpExpr b e) :
    dumpHeader (bareHeader header) = dumpHeader header := by
  have hmap : (header.params.map bareParam).map dumpParam = header.params.map dumpParam :=
    map_map_of_forall fun p hp => dumpParam_bare (hparams p hp)
  have hoption := dumpOption_bare (w := ":") htype
  obtain ⟨name, params, type⟩ := header
  simp only [bareHeader, dumpHeader, Name.text_respan, dumpParams_eq, bareParams_eq, hmap,
    bareOption_eq, hoption]

/-- The dump does not show spans. -/
theorem dump_bare : Expr.Cases (fun e => ∀ b, dumpExpr b e.bare = dumpExpr b e)
    (fun d => dumpDecl (bareDecl d) = dumpDecl d) where
  leaf l b := by rw [Expr.bare, dumpExpr, dumpExpr, Leaf.text_respan]
  paren span e he b := by rw [Expr.bare, dumpExpr, dumpExpr, he]
  record span builder fields hfields b := by
    have hbuilder : (builder.map (QualifiedName.respan .bare)).toList.map QualifiedName.text =
        builder.toList.map QualifiedName.text := by
      cases builder <;> simp
    have hmap : (fields.map fun f => (⟨default, f.name.respan .bare, f.value.bare⟩ : Assignment Expr)).map
        (fun f => parenthesised [f.name.text, dumpExpr false f.value]) =
        fields.map fun f => parenthesised [f.name.text, dumpExpr false f.value] := by
      apply map_map_of_forall
      intro f hf
      simp [hfields f hf]
    rw [Expr.bare, dumpExpr, dumpExpr, dumpAssignments_eq, dumpAssignments_eq, bareAssignments_eq,
      hmap, hbuilder]
  arrow span domain codomain hdomain hcodomain b := by
    rw [Expr.bare, dumpExpr, dumpExpr, hdomain, hcodomain]
  pi span params codomain hparams hcodomain b := by
    rw [Expr.bare, dumpExpr, dumpExpr, hcodomain, dumpParams_eq, dumpParams_eq, bareParams_eq,
      map_map_of_forall fun p hp => dumpParam_bare (hparams p hp)]
  bind span binder bindings body hbindings hbody b := by
    have hmap : (bindings.map bareBinding).map dumpBinding = bindings.map dumpBinding := by
      apply map_map_of_forall
      rintro (n | p) hp
      · rfl
      · exact dumpParam_bare (hbindings p hp)
    rw [Expr.bare, dumpExpr, dumpExpr, hbody, dumpBindings_eq, dumpBindings_eq, bareBindings_eq,
      hmap]
  letIn span decls body hdecls hbody b := by
    rw [Expr.bare, dumpExpr, dumpExpr, hbody, dumpDecls_eq, dumpDecls_eq, bareDecls_eq,
      map_map_of_forall hdecls]
  app span fn arg hfn harg b := by rw [Expr.bare, dumpExpr, dumpExpr, hfn, harg]
  operation span operator left right hleft hright b := by
    rw [Expr.bare, dumpExpr, dumpExpr, hleft, hright, Name.text_respan]
  dataType span header constructors hparams htype hconstructors := by
    have hmap : (constructors.map bareSignature).map dumpSignature =
        constructors.map dumpSignature :=
      map_map_of_forall fun g hg => dumpSignature_bare (hconstructors g hg)
    simp only [bareDecl, dumpDecl, dumpSignatures_eq, bareSignatures_eq, hmap,
      dumpHeader_bare hparams htype]
  emptyData span header hparams htype := by
    simp only [bareDecl, dumpDecl, dumpHeader_bare hparams htype]
  recordType span header builder fields decls hparams htype hfields hdecls := by
    have hbuilder : (builder.map (Name.respan .bare)).toList.map
        (fun name => parenthesised ["constructor", name.text]) =
        builder.toList.map fun name => parenthesised ["constructor", name.text] := by
      cases builder <;> simp
    have hmap : (fields.map bareSignature).map dumpSignature = fields.map dumpSignature :=
      map_map_of_forall fun g hg => dumpSignature_bare (hfields g hg)
    simp only [bareDecl, dumpDecl, dumpSignatures_eq, bareSignatures_eq, hmap,
      dumpHeader_bare hparams htype, hbuilder, dumpDecls_eq, bareDecls_eq, map_map_of_forall hdecls]
  moduleBlock span name params decls hparams hdecls := by
    have hmap : (params.map bareParam).map dumpParam = params.map dumpParam :=
      map_map_of_forall fun p hp => dumpParam_bare (hparams p hp)
    simp only [bareDecl, dumpDecl, QualifiedName.text_respan, dumpParams_eq, bareParams_eq, hmap,
      dumpDecls_eq, bareDecls_eq, map_map_of_forall hdecls]
  importModule span kind name := by
    simp only [bareDecl, dumpDecl, QualifiedName.text_respan]
  ascription signature htype := by
    cases signature
    simp only [bareDecl, bareSignature, dumpDecl, Name.listText_respan, htype]
  clause span patterns isOperator withPatterns withExpr rhs locals hpatterns hwith hexpr hrhs
      hlocals := by
    simp only [bareDecl, dumpDecl, dumpExprs_eq, bareExprs_eq,
      map_map_of_forall fun e he => hpatterns e he false,
      map_map_of_forall fun e he => hwith e he false, bareOption_eq, dumpOption_bare hexpr,
      dumpOption_bare hrhs, bareDecls_eq, List.isEmpty_map, dumpDecls_eq, map_map_of_forall hlocals]
  fixity span fixity operators := by simp only [bareDecl, dumpDecl, Name.listText_respan]

/-- Files that agree up to spans have one dump. -/
theorem File.dump_eq_of_bare {f g : File} (h : f.decls.map bareDecl = g.decls.map bareDecl) :
    f.dump = g.dump := by
  have hdump : ∀ ds : List (Decl Expr), dumpDecls ds = (ds.map bareDecl).map dumpDecl := by
    intro ds
    rw [dumpDecls_eq, map_map_of_forall fun d _ => dump_bare.decl d]
  rw [File.dump, File.dump, hdump, hdump, h]

end Offside
