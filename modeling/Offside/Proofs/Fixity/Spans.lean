-- SUMMARY: What a tree resolves to lies where the tree does.
import Offside.Proofs.Expr.Spanned
import Offside.Proofs.Fixity.Scoped

/-! # Spans of resolved trees

Resolution groups the atoms of a run and keeps all other spans. The span of a
group is that of its first and its last member, so it lies in the run, and what
it is made of stands in the order of the text: `Grouped.lies`. Declarations that
do not resolve are left out, which keeps the order of the others:
`lies_resolveFile`. -/

namespace Offside

/-! ## Parts -/

section

variable {ε ε' : Type} {source : String} {outer : Span} {E : ε → ε' → Prop} {C : ε → Span → Prop}
  {C' : ε' → Span → Prop}

theorem Param.Rel.lies {p : Param ε} {q : Param ε'} (h : p.Rel E q)
    (htype : ∀ r outer, E p.type r → C p.type outer → C' r outer) (hp : p.Lies source C outer) :
    q.Lies source C' outer := by
  obtain ⟨span, isImplicit, names, type⟩ := q
  obtain ⟨rfl, rfl, rfl, hrel⟩ := h
  cases hp with
  | mk lies subjects typing => exact .mk lies subjects (htype _ _ hrel typing)

theorem Binding.Rel.lies {b : Binding ε} {b' : Binding ε'} (h : b.Rel E b')
    (htype : ∀ p, b = .typed p → ∀ r outer, E p.type r → C p.type outer → C' r outer)
    (hb : b.Lies source C outer) : b'.Lies source C' outer := by
  cases h with
  | name n =>
    cases hb with
    | name lies => exact .name lies
  | typed param =>
    cases hb with
    | typed lies => exact .typed (param.lies (htype _ rfl) lies)

theorem Assignment.Rel.lies {f : Assignment ε} {f' : Assignment ε'} (h : f.Rel E f')
    (hvalue : ∀ r outer, E f.value r → C f.value outer → C' r outer)
    (hf : f.Lies source C outer) : f'.Lies source C' outer := by
  obtain ⟨span, name, value⟩ := f'
  obtain ⟨rfl, rfl, hrel⟩ := h
  cases hf with
  | mk lies subject content => exact .mk lies subject (hvalue _ _ hrel content)

theorem Signature.Rel.lies {g : Signature ε} {g' : Signature ε'} (h : g.Rel E g')
    (htype : ∀ r outer, E g.type r → C g.type outer → C' r outer) (hg : g.Lies source C outer) :
    g'.Lies source C' outer := by
  obtain ⟨span, names, type⟩ := g'
  obtain ⟨rfl, rfl, hrel⟩ := h
  cases hg with
  | mk lies subjects typing => exact .mk lies subjects (htype _ _ hrel typing)

theorem Header.Rel.lies {header : Header ε} {header' : Header ε'} (h : header.Rel E header')
    (hparams : ∀ p ∈ header.params, ∀ r outer, E p.type r → C p.type outer → C' r outer)
    (htype : ∀ e ∈ header.type, ∀ r outer, E e r → C e outer → C' r outer)
    (hheader : header.Lies source C outer) : header'.Lies source C' outer := by
  obtain ⟨name, params, type⟩ := header'
  obtain ⟨rfl, hps, hrel⟩ := h
  cases hheader with
  | mk subject telescope typing =>
    refine .mk subject ?_ ?_
    · exact forall_mem_of_forall₂ hps (fun p hp q hq => hq.lies (hparams p hp)) telescope
    · intro e he
      cases hrel with
      | none => simp at he
      | some hrel =>
        obtain rfl := Option.some.inj he
        exact htype _ rfl _ _ hrel (typing _ rfl)

end

namespace Fixity

variable {source : String} {outer : Span}

/-! ## Groups -/

/-- The span of a member of a run. -/
def Piece.span : Piece → Span
  | .operand e => e.span
  | .operator op => op.name.span

/-- A member of a run with its parts inside. -/
inductive Piece.Lies (source : String) : Piece → Span → Prop
  | operand {e outer} (lies : e.Lies source outer) : Piece.Lies source (.operand e) outer
  | operator {op outer} (lies : op.name.Lies source outer) : Piece.Lies source (.operator op) outer

theorem Piece.located : Located source (Piece.Lies source) Piece.span := by
  intro piece outer h
  cases h with
  | operand lies => exact Expr.located _ _ lies
  | operator lies => exact lies

theorem Piece.Lies.within {piece : Piece} {inner : Span} (h : piece.Lies source inner)
    (hspan : piece.span.Lies source outer) : piece.Lies source outer := by
  cases h with
  | operand lies => exact .operand (lies.within hspan)
  | operator _ => exact .operator hspan

/-- Members that stand before an offset lie in the part of a span before it. -/
theorem Piece.Lies.before {piece : Piece} {offset : Nat} (h : piece.Lies source outer)
    (hle : piece.span.stop ≤ offset) : piece.Lies source ⟨outer.start, offset⟩ := by
  have hspan := located _ _ h
  exact h.within (Span.lies_of hspan.start hspan.stop hspan.le
    (Span.contains_iff.1 hspan.inside).1 hle)

/-- Members that stand after an offset lie in the part of a span after it. -/
theorem Piece.Lies.after {piece : Piece} {offset : Nat} (h : piece.Lies source outer)
    (hle : offset ≤ piece.span.start) : piece.Lies source ⟨offset, outer.stop⟩ := by
  have hspan := located _ _ h
  exact h.within (Span.lies_of hspan.start hspan.stop hspan.le hle
    (Span.contains_iff.1 hspan.inside).2)

/-- A group lies where all its members do. -/
theorem Grouped.lies {pieces : List Piece} {e : Expr} (h : Grouped pieces e)
    (hordered : Span.Ordered (pieces.map Piece.span))
    (heach : ∀ piece ∈ pieces, piece.Lies source outer) : e.Lies source outer := by
  induction h generalizing outer with
  | operand e =>
    cases heach _ List.mem_cons_self with
    | operand lies => exact lies
  | @apply pieces fn arg _ head ih =>
    rw [List.map_append] at hordered
    obtain ⟨hpieces, -, hbefore⟩ := List.pairwise_append.1 hordered
    obtain ⟨heach, harg⟩ := List.forall_mem_append.1 heach
    -- all members of the function stand before the argument, so the function does
    have hfn : fn.Lies source ⟨outer.start, arg.span.start⟩ := by
      refine ih hpieces fun piece hpiece => (heach piece hpiece).before ?_
      exact hbefore _ (List.mem_map_of_mem hpiece) _ List.mem_cons_self
    cases harg _ List.mem_cons_self with
    | operand harg =>
      have hfirst := Expr.located _ _ (ih hpieces heach)
      have hlast := Expr.located _ _ harg
      refine .app (hfirst.merge hlast) (hfn.within ?_) (harg.within ?_) ?_
      · exact hfirst.moved (Span.contains_merge_left _ _)
      · exact hlast.moved (Span.contains_merge_right _ _)
      · exact (Expr.located _ _ hfn).before hlast.self (Nat.le_refl _)
  | @operate before after left right op first second ihl ihr =>
    rw [List.map_append] at hordered
    obtain ⟨hlefts, hothers, hbefore⟩ := List.pairwise_append.1 hordered
    obtain ⟨hafter, hrights⟩ := List.pairwise_cons.1 hothers
    obtain ⟨heach, hothers⟩ := List.forall_mem_append.1 heach
    obtain ⟨hop, heach'⟩ := List.forall_mem_cons.1 hothers
    have hleft : left.Lies source ⟨outer.start, op.name.span.start⟩ := by
      refine ihl hlefts fun piece hpiece => (heach piece hpiece).before ?_
      exact hbefore _ (List.mem_map_of_mem hpiece) _ List.mem_cons_self
    have hright : right.Lies source ⟨op.name.span.stop, outer.stop⟩ := by
      refine ihr hrights fun piece hpiece => (heach' piece hpiece).after ?_
      exact hafter _ (List.mem_map_of_mem hpiece)
    have hfirst := Expr.located _ _ (ihl hlefts heach)
    have hlast := Expr.located _ _ (ihr hrights heach')
    have hbetween := Piece.located _ _ hop
    have hstop : left.span.stop ≤ op.name.span.start :=
      (Expr.located _ _ hleft).before hbetween.self (Nat.le_refl _)
    have hstart : op.name.span.stop ≤ right.span.start :=
      hbetween.self.before (Expr.located _ _ hright) (Nat.le_refl _)
    refine .operation (hfirst.merge hlast) (hbetween.moved ?_) (hleft.within ?_)
      (hright.within ?_) hstop hstart
    · have hle := hfirst.le
      have hle' := hlast.le
      refine Span.contains_iff.2 ⟨?_, ?_⟩ <;> simp only [Span.merge, Piece.span] <;> omega
    · exact hfirst.moved (Span.contains_merge_left _ _)
    · exact hlast.moved (Span.contains_merge_right _ _)

/-! ## Trees -/

section

variable {limit : Nat} {table : Table} {levels : Nat}

variable (source limit) in
/-- What the expression resolves to lies where it does. -/
def PlacesExpr (e : Concrete.Expr) : Prop :=
  ∀ table levels r outer, ResolvesTo limit table levels e r → e.Lies source outer →
    r.Lies source outer

variable (source limit) in
/-- The same of an atom that is an operand, or a typed parameter. -/
def PlacesAtom (a : Concrete.Atom) : Prop :=
  (∀ table levels r outer, (resolveAtom limit table levels a).result = .ok r →
    a.Lies source outer → r.Lies source outer) ∧ ∀ p, a = .param p → PlacesExpr source limit p.type

variable (source limit) in
/-- The same of a declaration. -/
def PlacesDecl (d : Decl Concrete.Expr) : Prop :=
  ∀ table levels r outer, (resolveDecl limit table levels d).result = .ok r →
    d.Lies source (Concrete.Expr.Lies source) outer → r.Lies source (Expr.Lies source) outer

/-- An operator lies where the atom does that it was. -/
theorem lies_operator? {a : Concrete.Atom} {op : Operator} (h : operator? table a = some op)
    (ha : a.Lies source outer) : op.name.Lies source a.span := by
  obtain ⟨span, _, rfl, -⟩ := exists_of_operator? h
  cases ha with
  | leaf lies =>
    cases lies with
    | name lies => exact lies.parts op.name List.mem_cons_self
    | other isOther _ => exact absurd rfl (isOther _)

/-- Each member of a run lies where its atom does. -/
theorem lies_member {a : Concrete.Atom} {piece : Piece} (hplaces : PlacesAtom source limit a)
    (h : PieceResult limit table levels a piece) (ha : a.Lies source outer) :
    piece.Lies source a.span := by
  cases h with
  | operator known => exact .operator (lies_operator? known ha)
  | operand unknown inner => exact .operand (hplaces.1 table levels _ _ inner ha.self)

/-- Members of a run lie where its atoms do, so they are in order as well. -/
theorem lies_members {atoms : List Concrete.Atom} {pieces : List Piece}
    (hatoms : ∀ a ∈ atoms, PlacesAtom source limit a)
    (h : List.Forall₂ (PieceResult limit table levels) atoms pieces)
    (heach : ∀ a ∈ atoms, a.Lies source outer)
    (hordered : Span.Ordered (atoms.map Concrete.Atom.span)) :
    (∀ piece ∈ pieces, ∃ a ∈ atoms, piece.Lies source a.span) ∧
      Span.Ordered (pieces.map Piece.span) := by
  induction h with
  | nil => exact ⟨by simp, .nil⟩
  | @cons a piece atoms pieces hpiece _ ih =>
    obtain ⟨hplaces, htail⟩ := List.forall_mem_cons.1 hatoms
    obtain ⟨ha, hrest⟩ := List.forall_mem_cons.1 heach
    obtain ⟨hbefore, hordered⟩ := List.pairwise_cons.1 hordered
    obtain ⟨hlies, hpieces⟩ := ih htail hrest hordered
    have hfirst := lies_member hplaces hpiece ha
    refine ⟨List.forall_mem_cons.2 ⟨⟨a, List.mem_cons_self, hfirst⟩, fun other hother => ?_⟩,
      .cons (fun span hspan => ?_) hpieces⟩
    · obtain ⟨b, hb, hlies⟩ := hlies other hother
      exact ⟨b, List.mem_cons_of_mem _ hb, hlies⟩
    · obtain ⟨other, hother, rfl⟩ := List.mem_map.1 hspan
      obtain ⟨b, hb, hlies⟩ := hlies other hother
      exact (Piece.located _ _ hfirst).before (Piece.located _ _ hlies)
        (hbefore _ (List.mem_map_of_mem hb))

/-- What a run is grouped to lies where its atoms do. -/
theorem lies_run {atoms : List Concrete.Atom} {pieces : List Piece} {budget : Nat} {span : Span}
    {r : Expr} (hatoms : ∀ a ∈ atoms, PlacesAtom source limit a)
    (h : List.Forall₂ (PieceResult limit table levels) atoms pieces)
    (hr : (groupPieces budget span pieces).result = .ok r)
    (heach : ∀ a ∈ atoms, a.Lies source outer)
    (hordered : Span.Ordered (atoms.map Concrete.Atom.span)) : r.Lies source outer := by
  obtain ⟨hlies, hpieces⟩ := lies_members hatoms h heach hordered
  refine (grouped_of_result hr).lies hpieces fun piece hpiece => ?_
  obtain ⟨a, ha, hlies⟩ := hlies piece hpiece
  exact hlies.within ((Piece.located _ _ hlies).trans (Concrete.Atom.located _ _ (heach a ha)))

/-- The typed parameters before an arrow lie where the atoms do. -/
theorem lies_domain {ps : List (Param Concrete.Expr)} {qs : List (Param Expr)}
    (hatoms : ∀ a ∈ ps.map Concrete.Atom.param, PlacesAtom source limit a)
    (h : List.Forall₂ (Param.Rel (ResolvesTo limit table levels)) ps qs)
    (heach : ∀ a ∈ ps.map Concrete.Atom.param, a.Lies source outer) :
    ∀ q ∈ qs, q.Lies source (Expr.Lies source) outer := by
  have hparams : ∀ p ∈ ps, p.Lies source (Concrete.Expr.Lies source) outer := by
    intro p hp
    cases heach _ (List.mem_map_of_mem hp) with
    | param lies => exact lies
  refine forall_mem_of_forall₂ h (fun p hp q hq => hq.lies ?_) hparams
  exact (hatoms _ (List.mem_map_of_mem hp)).2 p rfl table levels

theorem lies_option {o : Option Concrete.Expr} {r : Option Expr}
    (hplaces : ∀ e ∈ o, PlacesExpr source limit e)
    (h : Option.Rel (ResolvesTo limit table levels) o r)
    (ho : ∀ e ∈ o, e.Lies source outer) : ∀ e ∈ r, e.Lies source outer :=
  forall_option h fun e he r hr => hplaces e he table levels r outer hr (ho e he)

theorem lies_header {header : Header Concrete.Expr} {r : Header Expr}
    (hparams : ∀ p ∈ header.params, PlacesExpr source limit p.type)
    (htype : ∀ e ∈ header.type, PlacesExpr source limit e)
    (h : header.Rel (ResolvesTo limit table levels) r)
    (hheader : header.Lies source (Concrete.Expr.Lies source) outer) :
    r.Lies source (Expr.Lies source) outer :=
  h.lies (fun p hp => hparams p hp table levels) (fun e he => htype e he table levels) hheader

theorem lies_signatures {gs : List (Signature Concrete.Expr)} {rs : List (Signature Expr)}
    (hplaces : ∀ g ∈ gs, PlacesExpr source limit g.type)
    (h : List.Forall₂ (Signature.Rel (ResolvesTo limit table levels)) gs rs)
    (hgs : ∀ g ∈ gs, g.Lies source (Concrete.Expr.Lies source) outer)
    (hordered : Span.Ordered (gs.map Signature.span)) :
    (∀ g ∈ rs, g.Lies source (Expr.Lies source) outer) ∧ Span.Ordered (rs.map Signature.span) := by
  refine ⟨forall_mem_of_forall₂ h (fun g hg r hr => hr.lies (hplaces g hg table levels)) hgs, ?_⟩
  rwa [map_eq_of_forall₂ h fun _ _ hr => hr.span]

/-- Patterns lie where they did. -/
theorem lies_patterns {es : List Concrete.Expr} {rs : List Expr}
    (hplaces : ∀ e ∈ es, PlacesExpr source limit e)
    (h : List.Forall₂ (fun e r => ResolvesTo limit table levels e r ∧ ensurePattern r = .ok ()) es rs)
    (hes : ∀ e ∈ es, e.Lies source outer) : ∀ e ∈ rs, e.Lies source outer :=
  forall_mem_of_forall₂ h (fun e he r hr => hplaces e he table levels r outer hr.1) hes

/-! ## Blocks -/

/-- A declaration keeps its span. -/
theorem span_resolveDecl {d : Decl Concrete.Expr} {r : Decl Expr}
    (h : (resolveDecl limit table levels d).result = .ok r) : r.span = d.span := by
  cases declResult_of_ok h with
  | ascription type => exact type.span
  | _ => rfl

theorem spans_resolveDecls (ds : List (Decl Concrete.Expr)) :
    ((resolveDecls limit table levels ds).1.map Decl.span).Sublist (ds.map Decl.span) := by
  induction ds with
  | nil => exact .slnil
  | cons d ds ih =>
    rw [resolveDecls, List.map_append, List.map_cons]
    cases hr : (resolveDecl limit table levels d).settle.1 with
    | none => exact ih.cons _
    | some r =>
      have hspan := span_resolveDecl (Report.settle_fst_eq_some.1 hr)
      rw [Option.toList_some, List.map_singleton, hspan]
      exact ih.cons_cons _

/-- The declarations of a block that resolve keep their places and their order. -/
theorem lies_resolveDecls {ds : List (Decl Concrete.Expr)}
    (hplaces : ∀ d ∈ ds, PlacesDecl source limit d)
    (heach : ∀ d ∈ ds, d.Lies source (Concrete.Expr.Lies source) outer)
    (hordered : Span.Ordered (ds.map Decl.span)) :
    (∀ r ∈ (resolveDecls limit table levels ds).1, r.Lies source (Expr.Lies source) outer) ∧
      Span.Ordered ((resolveDecls limit table levels ds).1.map Decl.span) := by
  refine ⟨fun r hr => ?_, hordered.sublist (spans_resolveDecls ds)⟩
  obtain ⟨d, hd, hresult⟩ := exists_of_mem_resolveDecls hr
  exact hplaces d hd table levels r outer hresult (heach d hd)

/-! ## Left-hand sides -/

/-- The head of an application and its arguments lie where it does. -/
theorem lies_spine {e : Expr} (he : e.Lies source outer) :
    ∀ e' ∈ e.spine, e'.Lies source outer := by
  induction e using Expr.spine.induct with
  | case1 _ fn arg ih =>
    cases he with
    | app lies head operand =>
      rw [Expr.spine]
      exact List.forall_mem_append.2 ⟨ih (head.trans lies),
        List.forall_mem_singleton.2 (operand.trans lies)⟩
  | case2 e hother =>
    rw [Expr.spine]
    · exact List.forall_mem_singleton.2 he
    · exact hother

/-- A defined name and its patterns lie where the left-hand side does. -/
theorem lies_leftHandSide {e : Expr} (he : e.Lies source outer) :
    ∀ e' ∈ (leftHandSide e).1, e'.Lies source outer := by
  unfold leftHandSide
  split
  · rename_i operator left right
    cases he with
    | operation lies between first second =>
      have hname : Expr.Lies source (.leaf (.name (.simple operator))) outer :=
        .leaf (.name ⟨between.trans lies, List.forall_mem_singleton.2 between.self⟩)
      exact List.forall_mem_cons.2 ⟨hname, List.forall_mem_cons.2
        ⟨first.trans lies, List.forall_mem_singleton.2 (second.trans lies)⟩⟩
  · exact lies_spine he

/-! ## All trees -/

/-- What trees resolve to lies where they do. -/
theorem places (source : String) (limit : Nat) : Concrete.Cases (PlacesExpr source limit)
    (PlacesAtom source limit) (PlacesDecl source limit) where
  run := by
    intro span atoms ih table levels r outer hr he
    cases he with
    | run lies each ordered =>
      cases exprResult_of_ok hr with
      | run members group => exact (lies_run ih members group each ordered).trans lies
  arrow := by
    intro span domain codomain ihs ih table levels r outer hr he
    cases he with
    | arrow lies each ordered target =>
      cases exprResult_of_ok hr with
      | pi source result =>
        exact .pi lies (lies_domain ihs source each) (ih _ _ _ span result target)
      | arrow members group result =>
        exact .arrow lies (lies_run ihs members group each ordered) (ih _ _ _ span result target)
  bind := by
    intro span binder bindings body ihs ih table levels r outer hr he
    cases he with
    | bind lies bounds inner =>
      cases exprResult_of_ok hr with
      | bind bound result =>
        refine .bind lies ?_ (ih _ _ _ span result inner)
        refine forall_mem_of_forall₂ bound (fun b hb b' hrel => ?_) bounds
        exact hrel.lies fun p hp => ihs p (hp ▸ hb) table _
  letIn := by
    intro span decls body ihs ih table levels r outer hr he
    cases he with
    | letIn lies each sequence inner =>
      cases exprResult_of_ok hr with
      | letIn result =>
        obtain ⟨hds, hsequence⟩ := lies_resolveDecls ihs each sequence
        exact .letIn lies hds hsequence (ih _ _ _ span result inner)
  leaf := by
    intro l
    refine ⟨fun table levels r outer hr ha => ?_, by simp⟩
    cases ha with
    | leaf lies =>
      cases atomResult_of_ok hr with
      | leaf => exact .leaf lies
  paren := by
    intro span e ih
    refine ⟨fun table levels r outer hr ha => ?_, by simp⟩
    cases ha with
    | paren lies inner =>
      cases atomResult_of_ok hr with
      | paren result => exact .paren lies (ih table levels _ span result inner)
  param := by
    intro p ih
    refine ⟨fun table levels r outer hr _ => ?_, ?_⟩
    · cases atomResult_of_ok hr
    · rintro _ ⟨⟩
      exact ih
  record := by
    intro span builder fields ihs
    refine ⟨fun table levels r outer hr ha => ?_, by simp⟩
    cases ha with
    | record lies made each ordered =>
      cases atomResult_of_ok hr with
      | record values =>
        refine .record lies made ?_ ?_
        · exact forall_mem_of_forall₂ values (fun f hf f' hf' => hf'.lies (ihs f hf table levels)) each
        · rwa [map_eq_of_forall₂ values fun _ _ h => h.span]
  tail := by
    intro e ih
    refine ⟨fun table levels r outer hr ha => ?_, by simp⟩
    cases ha with
    | tail inner =>
      cases atomResult_of_ok hr with
      | tail result => exact ih table levels r outer result inner
  dataType := by
    intro span header constructors ihps iht ihs table levels r outer hr hd
    cases hd with
    | dataType lies subject each ordered =>
      cases declResult_of_ok hr with
      | dataType head types =>
        obtain ⟨htypes, hordered⟩ := lies_signatures ihs types each ordered
        exact .dataType lies (lies_header ihps iht head subject) htypes hordered
  emptyData := by
    intro span header ihps iht table levels r outer hr hd
    cases hd with
    | emptyData lies subject =>
      cases declResult_of_ok hr with
      | emptyData head => exact .emptyData lies (lies_header ihps iht head subject)
  recordType := by
    intro span header builder fields decls ihps iht ihs ihds table levels r outer hr hd
    cases hd with
    | recordType lies subject made eachField ordered each sequence =>
      cases declResult_of_ok hr with
      | recordType head types =>
        obtain ⟨htypes, hordered⟩ := lies_signatures ihs types eachField ordered
        obtain ⟨hds, hsequence⟩ := lies_resolveDecls ihds each sequence
        exact .recordType lies (lies_header ihps iht head subject) made htypes hordered hds hsequence
  moduleBlock := by
    intro span name params decls ihps ihds table levels r outer hr hd
    cases hd with
    | moduleBlock lies subject telescope each sequence =>
      cases declResult_of_ok hr with
      | moduleBlock head =>
        obtain ⟨hds, hsequence⟩ := lies_resolveDecls ihds each sequence
        refine .moduleBlock lies subject ?_ hds hsequence
        exact forall_mem_of_forall₂ head (fun p hp q hq => hq.lies (ihps p hp table levels)) telescope
  importModule := by
    intro span kind name table levels r outer hr hd
    cases hd with
    | importModule lies subject =>
      cases declResult_of_ok hr with
      | importModule => exact .importModule lies subject
  ascription := by
    intro signature ih table levels r outer hr hd
    cases hd with
    | ascription lies =>
      cases declResult_of_ok hr with
      | ascription type => exact .ascription (type.lies (ih table levels) lies)
  clause := by
    intro span patterns isOperator withPatterns withExpr rhs locals ihs ihws ihw ihr ihds
      table levels r outer hr hd
    cases hd with
    | clause lies eachLeft eachOther eachWith eachRight each sequence =>
      cases declResult_of_ok hr with
      | clause left others scrutinee right =>
        obtain ⟨hds, hsequence⟩ := lies_resolveDecls ihds each sequence
        refine .clause lies ?_ (lies_patterns ihws others eachOther)
          (lies_option ihw scrutinee eachWith) (lies_option ihr right eachRight) hds hsequence
        intro e he
        simp only [List.mem_flatMap, List.mem_map] at he
        obtain ⟨_, ⟨side, hside, rfl⟩, he⟩ := he
        exact lies_leftHandSide (lies_patterns ihs left eachLeft side hside) e he
  fixity := by
    intro span fixity operators table levels r outer hr hd
    cases hd with
    | fixity lies subjects =>
      cases declResult_of_ok hr with
      | fixity => exact .fixity lies subjects

/-- The declarations of a file that resolve lie where they did, in their order. -/
theorem lies_resolveFile (limit : Nat) {ds : List (Decl Concrete.Expr)}
    (heach : ∀ d ∈ ds, d.Lies source (Concrete.Expr.Lies source) outer)
    (hordered : Span.Ordered (ds.map Decl.span)) :
    (∀ r ∈ (resolveFile limit ds).1, r.Lies source (Expr.Lies source) outer) ∧
      Span.Ordered ((resolveFile limit ds).1.map Decl.span) :=
  lies_resolveDecls (fun d _ => (places source limit).decl d) heach hordered

end

end Fixity

end Offside
