-- SUMMARY: Resolving operators loses nothing: the concrete tree can be read off what it resolves to.
import Offside.Proofs.Fixity.Resolution
import Offside.Proofs.Parser.Formed
import Offside.Source

/-! # Resolution can be undone

`Expr.flatten` takes the grouping out of an expression again: applications and
operators become the run they were. Of what the parser gives, everything comes
back in its place, but for the spans of runs: `flatten_resolveFile`. -/

namespace Offside

/-! ## Flattening -/

/-- The expression that a list of atoms is. A form that stands alone is no run. -/
def Concrete.Expr.ofAtoms (span : Span) : List Concrete.Atom → Concrete.Expr
  | [.tail e] => e
  | atoms => .run span atoms

/-- The left-hand side of a clause. An operator stands between its patterns. -/
def leftAtoms (isOperator : Bool) (patterns : List (List Concrete.Atom)) : List Concrete.Atom :=
  match isOperator, patterns with
  | true, [operator, left, right] => left ++ operator ++ right
  | _, patterns => patterns.flatten

mutual

/-- The run that an expression is made of, from left to right. -/
def Expr.atoms : Expr → List Concrete.Atom
  | .leaf l => [.leaf l]
  | .paren span e => [.paren span (.ofAtoms e.span e.atoms)]
  | .record span builder fields => [.record span builder (flattenAssignments fields)]
  | .arrow span domain codomain =>
    [.tail (.arrow span domain.atoms (.ofAtoms codomain.span codomain.atoms))]
  | .pi span params codomain =>
    [.tail (.arrow span ((flattenParams params).map .param)
      (.ofAtoms codomain.span codomain.atoms))]
  | .bind span binder bindings body =>
    [.tail (.bind span binder (flattenBindings bindings) (.ofAtoms body.span body.atoms))]
  | .letIn span decls body =>
    [.tail (.letIn span (flattenDecls decls) (.ofAtoms body.span body.atoms))]
  | .app _ fn arg => fn.atoms ++ arg.atoms
  | .operation _ operator left right =>
    left.atoms ++ .leaf (.name (.simple operator)) :: right.atoms

/-- The assignments of a record value. -/
def flattenAssignments : List (Assignment Expr) → List (Assignment Concrete.Expr)
  | [] => []
  | ⟨span, name, value⟩ :: fields =>
    ⟨span, name, .ofAtoms value.span value.atoms⟩ :: flattenAssignments fields

/-- Some typed parameters. -/
def flattenParams : List (Param Expr) → List (Param Concrete.Expr)
  | [] => []
  | ⟨span, isImplicit, names, type⟩ :: ps =>
    ⟨span, isImplicit, names, .ofAtoms type.span type.atoms⟩ :: flattenParams ps

/-- The bindings of a lambda or quantifier. -/
def flattenBindings : List (Binding Expr) → List (Binding Concrete.Expr)
  | [] => []
  | .name n :: bs => .name n :: flattenBindings bs
  | .typed ⟨span, isImplicit, names, type⟩ :: bs =>
    .typed ⟨span, isImplicit, names, .ofAtoms type.span type.atoms⟩ :: flattenBindings bs

/-- An expression that may be missing. -/
def flattenOption : Option Expr → Option Concrete.Expr
  | none => none
  | some e => some (.ofAtoms e.span e.atoms)

/-- The runs of some patterns. -/
def patternAtoms : List Expr → List (List Concrete.Atom)
  | [] => []
  | e :: es => e.atoms :: patternAtoms es

/-- Some expressions. -/
def flattenExprs : List Expr → List Concrete.Expr
  | [] => []
  | e :: es => .ofAtoms e.span e.atoms :: flattenExprs es

/-- Constructors or fields. -/
def flattenSignatures : List (Signature Expr) → List (Signature Concrete.Expr)
  | [] => []
  | ⟨span, names, type⟩ :: gs =>
    ⟨span, names, .ofAtoms type.span type.atoms⟩ :: flattenSignatures gs

/-- The header of a data or record type. -/
def flattenHeader : Header Expr → Header Concrete.Expr
  | ⟨name, params, type⟩ => ⟨name, flattenParams params, flattenOption type⟩

/-- A declaration with the grouping of its operators taken out. -/
def flattenDecl : Decl Expr → Decl Concrete.Expr
  | .dataType span header constructors =>
    .dataType span (flattenHeader header) (flattenSignatures constructors)
  | .emptyData span header => .emptyData span (flattenHeader header)
  | .recordType span header builder fields decls =>
    .recordType span (flattenHeader header) builder (flattenSignatures fields) (flattenDecls decls)
  | .moduleBlock span name params decls =>
    .moduleBlock span name (flattenParams params) (flattenDecls decls)
  | .importModule span kind name => .importModule span kind name
  | .ascription ⟨span, names, type⟩ => .ascription ⟨span, names, .ofAtoms type.span type.atoms⟩
  | .clause span patterns isOperator withPatterns withExpr rhs locals =>
    .clause span [.run span (leftAtoms isOperator (patternAtoms patterns))] false
      (flattenExprs withPatterns) (flattenOption withExpr) (flattenOption rhs) (flattenDecls locals)
  | .fixity span fixity operators => .fixity span fixity operators

/-- Some declarations. -/
def flattenDecls : List (Decl Expr) → List (Decl Concrete.Expr)
  | [] => []
  | d :: ds => flattenDecl d :: flattenDecls ds

end

/-- An expression with the grouping of its operators taken out. -/
def Expr.flatten (e : Expr) : Concrete.Expr := .ofAtoms e.span e.atoms

theorem patternAtoms_eq (es : List Expr) : patternAtoms es = es.map Expr.atoms := by
  induction es with
  | nil => rfl
  | cons e es ih => rw [patternAtoms, ih, List.map_cons]

theorem Expr.atoms_ne_nil (e : Expr) : e.atoms ≠ [] := by
  cases e with
  | app span fn arg =>
    rw [Expr.atoms]
    exact List.append_ne_nil_of_left_ne_nil fn.atoms_ne_nil _
  | operation | leaf | paren | record | arrow | pi | bind | letIn => simp [Expr.atoms]

theorem Expr.spine_atoms (e : Expr) : (e.spine.map Expr.atoms).flatten = e.atoms := by
  induction e using Expr.spine.induct with
  | case1 _ fn arg ih => simp [Expr.spine, ih, Expr.atoms]
  | case2 e hother => simp [Expr.spine.eq_2 e hother]

/-- The left-hand side that a pattern is taken apart into has the run of the
pattern. -/
theorem leftAtoms_leftHandSide (e : Expr) :
    leftAtoms (Fixity.leftHandSide e).2 (patternAtoms (Fixity.leftHandSide e).1) = e.atoms := by
  unfold Fixity.leftHandSide
  split
  · simp [patternAtoms, leftAtoms, Expr.atoms]
  · rw [patternAtoms_eq, leftAtoms, Expr.spine_atoms]
    simp

/-! ## Trees up to the spans of their runs -/

/-- Forget the spans of runs and keep all others. -/
def Respan.runless : Respan := ⟨fun _ => default, id, id⟩

@[simp] theorem Name.respan_runless (n : Name) : n.respan .runless = n := rfl

@[simp] theorem Name.map_respan_runless (ns : List Name) :
    ns.map (Name.respan .runless) = ns := List.map_id'' Name.respan_runless ns

@[simp] theorem QualifiedName.respan_runless (q : QualifiedName) : q.respan .runless = q := by
  rw [respan, Name.map_respan_runless]
  rfl

@[simp] theorem Leaf.respan_runless (l : Leaf) : l.respan .runless = l := by
  cases l <;> simp [respan, Respan.runless]
  exact QualifiedName.respan_runless _

namespace Fixity

open Concrete (exprRespan atomRespan paramRespan declRespan headerRespan)

/-- The atoms of a run that is no form alone give a run. -/
theorem exprRespan_ofAtoms {span : Span} {as : List Concrete.Atom}
    (h : ∀ e, as ≠ [.tail e]) :
    exprRespan .runless (.ofAtoms span as) = .run default (as.map (atomRespan .runless)) := by
  unfold Concrete.Expr.ofAtoms
  split
  · rename_i e
    exact absurd rfl (h e)
  · rw [exprRespan, Concrete.atomsRespan_eq]
    rfl

theorem ne_tail_of_map_eq {as bs : List Concrete.Atom}
    (h : as.map (atomRespan .runless) = bs.map (atomRespan .runless)) (hbs : ∀ e, bs ≠ [.tail e]) :
    ∀ e, as ≠ [.tail e] := by
  rintro e rfl
  obtain ⟨b, rfl⟩ : ∃ b, bs = [b] := by
    have hlength := congrArg List.length h
    exact List.length_eq_one_iff.1 (by simpa using hlength.symm)
  cases b with
  | tail e' => exact hbs e' rfl
  | leaf | paren | param | record => simp [atomRespan] at h

/-! ## What comes back -/

/-- The expression comes back, and a form is not taken for a run. -/
def ComesBack (e : Concrete.Expr) (r : Expr) : Prop :=
  e.Placed → exprRespan .runless r.flatten = exprRespan .runless e ∧
    (e.isForm = true → r.atoms = [.tail r.flatten])

/-- The atom comes back. -/
def AtomComesBack (a : Concrete.Atom) (r : Expr) : Prop :=
  a.Placed → (∀ e, a = .tail e → e.isForm = true) →
    r.atoms.map (atomRespan .runless) = [atomRespan .runless a]

/-- The declaration comes back. -/
def DeclComesBack (d : Decl Concrete.Expr) (r : Decl Expr) : Prop :=
  Concrete.Decl.Placed d → declRespan .runless (flattenDecl r) = declRespan .runless d

/-! ## Runs -/

/-- A member of a run as atoms. -/
def Piece.atoms : Piece → List Concrete.Atom
  | .operand e => e.atoms
  | .operator op => [.leaf (.name (.simple op.name))]

/-- Grouping keeps the members of a run in their order. -/
theorem Grouped.atoms {pieces : List Piece} {e : Expr} (h : Grouped pieces e) :
    e.atoms = pieces.flatMap Piece.atoms := by
  induction h with
  | operand e => simp [Piece.atoms]
  | apply arg _ _ ih => rw [Expr.apply, Expr.atoms, ih, List.flatMap_append]; simp [Piece.atoms]
  | operate op _ _ ih₁ ih₂ =>
    rw [Expr.operate, Expr.atoms, ih₁, ih₂, List.flatMap_append, List.flatMap_cons]
    rfl

theorem atoms_pieces {atoms : List Concrete.Atom} {pieces : List Piece}
    (h : List.Forall₂ (PieceOf AtomComesBack) atoms pieces) (hplaced : ∀ a ∈ atoms, a.Placed)
    (hforms : ∀ e, .tail e ∈ atoms → e.isForm = true) :
    (pieces.flatMap Piece.atoms).map (atomRespan .runless) = atoms.map (atomRespan .runless) := by
  induction h with
  | nil => rfl
  | @cons a piece atoms pieces hpiece _ ih =>
    have hhead : (Piece.atoms piece).map (atomRespan .runless) = [atomRespan .runless a] := by
      have ha := hplaced a List.mem_cons_self
      cases hpiece with
      | operand atom => exact atom ha fun e he => hforms e (he ▸ List.mem_cons_self)
      | operator span op =>
        cases ha with
        | leaf name =>
          have hspan : span = op.name.span := name _ rfl op.name rfl
          rw [hspan]
          rfl
    rw [List.flatMap_cons, List.map_append, hhead, ih
      (fun b hb => hplaced b (List.mem_cons_of_mem _ hb))
      (fun e he => hforms e (List.mem_cons_of_mem _ he)), List.map_cons]
    rfl

/-! ## Parts -/

theorem flattenAssignments_of_rel {fields : List (Assignment Concrete.Expr)}
    {rs : List (Assignment Expr)} (h : List.Forall₂ (Assignment.Rel ComesBack) fields rs)
    (hplaced : ∀ f ∈ fields, f.value.Placed) :
    Concrete.assignmentsRespan .runless (flattenAssignments rs) =
      Concrete.assignmentsRespan .runless fields := by
  induction h with
  | nil => rfl
  | @cons f r fields rs hrel _ ih =>
    obtain ⟨span, name, value⟩ := f
    obtain ⟨span', name', value'⟩ := r
    obtain ⟨rfl, rfl, hvalue⟩ := hrel
    have hvalue := (hvalue (hplaced _ List.mem_cons_self)).1
    rw [flattenAssignments, Concrete.assignmentsRespan, Concrete.assignmentsRespan,
      ih fun f hf => hplaced f (List.mem_cons_of_mem _ hf)]
    rw [← hvalue]
    rfl

theorem flattenParams_of_rel {ps : List (Param Concrete.Expr)} {qs : List (Param Expr)}
    (h : List.Forall₂ (Param.Rel ComesBack) ps qs) (hplaced : ∀ p ∈ ps, p.type.Placed) :
    Concrete.paramsRespan .runless (flattenParams qs) = Concrete.paramsRespan .runless ps := by
  induction h with
  | nil => rfl
  | @cons p q ps qs hrel _ ih =>
    obtain ⟨span, isImplicit, names, type⟩ := p
    obtain ⟨span', isImplicit', names', type'⟩ := q
    obtain ⟨rfl, rfl, rfl, htype⟩ := hrel
    have htype := (htype (hplaced _ List.mem_cons_self)).1
    rw [flattenParams, Concrete.paramsRespan, Concrete.paramsRespan, paramRespan, paramRespan,
      ih fun p hp => hplaced p (List.mem_cons_of_mem _ hp)]
    rw [← htype]
    rfl

theorem flattenBindings_of_rel {bs : List (Binding Concrete.Expr)} {rs : List (Binding Expr)}
    (h : List.Forall₂ (Binding.Rel ComesBack) bs rs)
    (hplaced : ∀ p, .typed p ∈ bs → p.type.Placed) :
    Concrete.bindingsRespan .runless (flattenBindings rs) =
      Concrete.bindingsRespan .runless bs := by
  induction h with
  | nil => rfl
  | cons hrel _ ih =>
    have ih := ih fun p hp => hplaced p (List.mem_cons_of_mem _ hp)
    cases hrel with
    | name n => rw [flattenBindings, Concrete.bindingsRespan, Concrete.bindingsRespan, ih]
    | @typed p q hrel =>
      obtain ⟨span, isImplicit, names, type⟩ := p
      obtain ⟨span', isImplicit', names', type'⟩ := q
      obtain ⟨rfl, rfl, rfl, htype⟩ := hrel
      have htype := (htype (hplaced _ List.mem_cons_self)).1
      rw [flattenBindings, Concrete.bindingsRespan, Concrete.bindingsRespan, paramRespan,
        paramRespan, ih]
      rw [← htype]
      rfl

theorem flattenOption_of_rel {o : Option Concrete.Expr} {r : Option Expr}
    (h : Option.Rel ComesBack o r) (hplaced : ∀ e ∈ o, e.Placed) :
    Concrete.optionRespan .runless (flattenOption r) = Concrete.optionRespan .runless o := by
  cases h with
  | none => rfl
  | some hrel =>
    rw [flattenOption, Concrete.optionRespan, Concrete.optionRespan, ← (hrel (hplaced _ rfl)).1]
    rfl

theorem flattenExprs_of_rel {es : List Concrete.Expr} {rs : List Expr}
    (h : List.Forall₂ ComesBack es rs) (hplaced : ∀ e ∈ es, e.Placed) :
    Concrete.exprsRespan .runless (flattenExprs rs) = Concrete.exprsRespan .runless es := by
  induction h with
  | nil => rfl
  | cons hrel _ ih =>
    rw [flattenExprs, Concrete.exprsRespan, Concrete.exprsRespan,
      ih fun e he => hplaced e (List.mem_cons_of_mem _ he),
      ← (hrel (hplaced _ List.mem_cons_self)).1]
    rfl

theorem flattenSignatures_of_rel {gs : List (Signature Concrete.Expr)} {rs : List (Signature Expr)}
    (h : List.Forall₂ (Signature.Rel ComesBack) gs rs) (hplaced : ∀ g ∈ gs, g.type.Placed) :
    Concrete.signaturesRespan .runless (flattenSignatures rs) =
      Concrete.signaturesRespan .runless gs := by
  induction h with
  | nil => rfl
  | @cons g r gs rs hrel _ ih =>
    obtain ⟨span, names, type⟩ := g
    obtain ⟨span', names', type'⟩ := r
    obtain ⟨rfl, rfl, htype⟩ := hrel
    have htype := (htype (hplaced _ List.mem_cons_self)).1
    rw [flattenSignatures, Concrete.signaturesRespan, Concrete.signaturesRespan,
      Concrete.signatureRespan, Concrete.signatureRespan,
      ih fun g hg => hplaced g (List.mem_cons_of_mem _ hg)]
    rw [← htype]
    rfl

theorem flattenHeader_of_rel {h : Header Concrete.Expr} {k : Header Expr}
    (hrel : h.Rel ComesBack k) (hparams : ∀ p ∈ h.params, p.type.Placed)
    (htype : ∀ e ∈ h.type, e.Placed) :
    headerRespan .runless (flattenHeader k) = headerRespan .runless h := by
  obtain ⟨name, params, type⟩ := h
  obtain ⟨name', params', type'⟩ := k
  obtain ⟨rfl, hparams', htype'⟩ := hrel
  rw [flattenHeader, headerRespan, headerRespan, flattenParams_of_rel hparams' hparams,
    flattenOption_of_rel htype' htype]

theorem flattenDecls_of_rel {ds : List (Decl Concrete.Expr)} {rs : List (Decl Expr)}
    (h : List.Forall₂ DeclComesBack ds rs) (hplaced : ∀ d ∈ ds, Concrete.Decl.Placed d) :
    Concrete.declsRespan .runless (flattenDecls rs) = Concrete.declsRespan .runless ds := by
  induction h with
  | nil => rfl
  | cons hrel _ ih =>
    rw [flattenDecls, Concrete.declsRespan, Concrete.declsRespan,
      hrel (hplaced _ List.mem_cons_self), ih fun d hd => hplaced d (List.mem_cons_of_mem _ hd)]

/-- A pattern is no form. -/
theorem atoms_ne_tail_of_pattern {r : Expr} (h : ensurePattern r = .ok ()) :
    ∀ e, r.atoms ≠ [.tail e] := by
  intro e he
  cases r with
  | leaf | paren | record => simp [Expr.atoms] at he
  | arrow | pi | bind | letIn => simp [ensurePattern, ensurePattern.notAPattern] at h
  | app span fn arg =>
    rw [Expr.atoms, List.append_eq_singleton_iff] at he
    rcases he with ⟨hfn, -⟩ | ⟨-, harg⟩
    · exact fn.atoms_ne_nil hfn
    · exact arg.atoms_ne_nil harg
  | operation span op left right =>
    rw [Expr.atoms, List.append_eq_singleton_iff] at he
    rcases he with ⟨hleft, -⟩ | ⟨-, hright⟩
    · exact left.atoms_ne_nil hleft
    · simp at hright

/-! ## Trees -/

/-- Of every well-formed tree all comes back. -/
theorem comesBack (limit : Nat) : Resolution limit ComesBack AtomComesBack DeclComesBack where
  run := by
    intro levels span atoms pieces r hwf hpieces hgrouped hplaced
    obtain ⟨hne, hforms⟩ : (∀ e, atoms ≠ [.tail e]) ∧ ∀ e, .tail e ∈ atoms → e.isForm = true := by
      cases hwf with
      | run shape each =>
        refine ⟨shape.ne_tail, fun e he => ?_⟩
        cases each _ he with
        | tail form _ => exact form
    cases hplaced with
    | run each =>
      have hatoms : r.atoms.map (atomRespan .runless) = atoms.map (atomRespan .runless) := by
        rw [hgrouped.atoms, atoms_pieces hpieces each hforms]
      refine ⟨?_, by intro h; cases h⟩
      rw [Expr.flatten, exprRespan_ofAtoms (ne_tail_of_map_eq hatoms hne), hatoms, exprRespan,
        Concrete.atomsRespan_eq]
      rfl
  arrow := by
    intro levels span domain codomain pieces r t hwf hpieces hgrouped ht hplaced
    have hforms : ∀ e, .tail e ∈ domain → e.isForm = true := by
      cases hwf with
      | arrow _ isTail _ _ => exact fun e he => absurd (isTail _ he) (by simp [Concrete.Atom.isTail])
    cases hplaced with
    | arrow each target =>
      refine ⟨?_, by intro h; cases h⟩
      change exprRespan .runless (.arrow span r.atoms t.flatten) = _
      rw [exprRespan, exprRespan, (ht target).1, Concrete.atomsRespan_eq, Concrete.atomsRespan_eq,
        hgrouped.atoms, atoms_pieces hpieces each hforms]
  pi := by
    intro levels span domain codomain params t hwf hdomain ht hplaced
    obtain ⟨ps, rfl, hps⟩ := rel_of_domain hdomain
    cases hplaced with
    | arrow each target =>
      have htypes : ∀ p ∈ ps, p.type.Placed := by
        intro p hp
        cases each _ (List.mem_map_of_mem hp) with
        | param type => exact type
      have hparams := flattenParams_of_rel hps htypes
      rw [Concrete.paramsRespan_eq, Concrete.paramsRespan_eq] at hparams
      have hatoms : ∀ ps : List (Param Concrete.Expr),
          (ps.map Concrete.Atom.param).map (atomRespan .runless) =
            (ps.map (paramRespan .runless)).map .param := by
        intro ps
        simp [Function.comp_def, atomRespan]
      refine ⟨?_, by intro h; cases h⟩
      change exprRespan .runless (.arrow span ((flattenParams params).map .param) t.flatten) = _
      rw [exprRespan, exprRespan, (ht target).1, Concrete.atomsRespan_eq, Concrete.atomsRespan_eq,
        hatoms, hatoms, hparams]
  bind := by
    intro levels span binder bindings body bs r _ hbs hr hplaced
    cases hplaced with
    | bind types result =>
      refine ⟨?_, fun _ => rfl⟩
      change exprRespan .runless (.bind span binder (flattenBindings bs) r.flatten) = _
      rw [exprRespan, exprRespan, (hr result).1, flattenBindings_of_rel hbs types]
  letIn := by
    intro span decls body rs r hrs hr hplaced
    cases hplaced with
    | letIn each result =>
      refine ⟨?_, fun _ => rfl⟩
      change exprRespan .runless (.letIn span (flattenDecls rs) r.flatten) = _
      rw [exprRespan, exprRespan, (hr result).1, flattenDecls_of_rel hrs each]
  leaf := by
    intro levels l _ _ _
    rfl
  paren := by
    intro span e r hr hplaced _
    cases hplaced with
    | paren inner =>
      rw [Expr.atoms, List.map_singleton, atomRespan, atomRespan, ← (hr inner).1]
      rfl
  record := by
    intro levels span builder fields rs _ hrs hplaced _
    cases hplaced with
    | record values =>
      rw [Expr.atoms, List.map_singleton, atomRespan, atomRespan,
        flattenAssignments_of_rel hrs values]
  tail := by
    intro e r hr hplaced hform
    cases hplaced with
    | tail inner =>
      obtain ⟨hback, hatoms⟩ := hr inner
      rw [hatoms (hform e rfl), List.map_singleton, atomRespan, atomRespan, hback]
  dataType := by
    intro levels span header constructors h gs _ hheader hgs hplaced
    cases hplaced with
    | dataType params type types =>
      rw [flattenDecl, declRespan, declRespan, flattenHeader_of_rel hheader params type,
        flattenSignatures_of_rel hgs types]
  emptyData := by
    intro levels span header h _ hheader hplaced
    cases hplaced with
    | emptyData params type =>
      rw [flattenDecl, declRespan, declRespan, flattenHeader_of_rel hheader params type]
  recordType := by
    intro levels span header builder fields decls h gs rs _ hheader hgs hrs hplaced
    cases hplaced with
    | recordType params type types each =>
      rw [flattenDecl, declRespan, declRespan, flattenHeader_of_rel hheader params type,
        flattenSignatures_of_rel hgs types, flattenDecls_of_rel hrs each]
  moduleBlock := by
    intro levels span name params decls ps rs _ hps hrs hplaced
    cases hplaced with
    | moduleBlock types each =>
      rw [flattenDecl, declRespan, declRespan, flattenParams_of_rel hps types,
        flattenDecls_of_rel hrs each]
  importModule _ _ := rfl
  ascription := by
    intro levels signature g _ hrel hplaced
    obtain ⟨span, names, type⟩ := signature
    obtain ⟨span', names', type'⟩ := g
    obtain ⟨rfl, rfl, htype⟩ := hrel
    cases hplaced with
    | ascription placed =>
      rw [flattenDecl, declRespan, declRespan, Concrete.signatureRespan, Concrete.signatureRespan,
        ← (htype placed).1]
      rfl
  clause := by
    intro span lhs withPatterns withExpr rhs locals r ws w r' rs hr hpattern hws hw hr' hrs hplaced
    cases hplaced with
    | clause left others scrutinee right each =>
      have hlhs := (hr (left lhs List.mem_cons_self)).1
      rw [Expr.flatten, exprRespan_ofAtoms (atoms_ne_tail_of_pattern hpattern)] at hlhs
      rw [flattenDecl, declRespan, declRespan, leftAtoms_leftHandSide,
        flattenExprs_of_rel hws others, flattenOption_of_rel hw scrutinee,
        flattenOption_of_rel hr' right, flattenDecls_of_rel hrs each,
        Concrete.exprsRespan_eq _ [lhs], List.map_singleton, ← hlhs, Concrete.exprsRespan_eq _ [_],
        List.map_singleton, exprRespan, Concrete.atomsRespan_eq]
      rfl
  fixity _ _ := rfl

/-! ## Files -/

/-- Resolving operators is lossless: of declarations that the parser gives and
that resolve without a problem, the flattening is what they were, in all but the
spans of runs. -/
theorem flatten_resolveFile (options : Options) (c : Cursor) {maxNesting : Nat}
    {rs : List (Decl Expr)}
    (h : resolveFile maxNesting (Parser.file options c).1 = (rs, [])) :
    Concrete.declsRespan .runless (flattenDecls rs) =
      Concrete.declsRespan .runless (Parser.file options c).1 := by
  have hformed := Parser.file_formed options c
  have hback := (comesBack options.maxPrecedence).file (fun d hd => (hformed d hd).wellFormed) h
  exact flattenDecls_of_rel hback fun d hd => (hformed d hd).placed

/-- An operator that a clause defines, one in an argument, and a `let` at the
end of a run. -/
theorem flatten_resolveFile_operator :
    let concrete := (Source.declarations {} "infixl 6 +\nx + y = f (x + y) let a = b in a\n").1
    (resolveFile 9 concrete).2 = [] ∧
      Concrete.declsRespan .runless (flattenDecls (resolveFile 9 concrete).1) =
        Concrete.declsRespan .runless concrete :=
  have hnone : (resolveFile 9
      (Source.declarations {} "infixl 6 +\nx + y = f (x + y) let a = b in a\n").1).2 = [] := by
    decide +kernel
  ⟨hnone, flatten_resolveFile {} _ (Prod.ext rfl hnone)⟩

end Fixity

end Offside
