-- SUMMARY: The forms that the parts of a resolved tree can have.
import Mathlib.Data.List.Forall2
import Offside.Proofs.Fixity.Spans

/-! # Shapes of resolved trees

A lambda, quantifier or `let` extends as far right as it can, so it can only be
the last operand of the run it is in. An arrow belongs to the innermost
expression around it. So a printer that puts no parentheses where the tree has
none gives back the tree, if the parts have the forms that `Expr.Shaped` lists.
Every parsed tree has them: `parse_shaped`. -/

namespace Offside

namespace Expr

/-! ## Forms -/

/-- Whether an expression is delimited by itself: a leaf, something in
parentheses, or a record value. -/
def isAtom : Expr → Bool
  | leaf _ | paren .. | record .. => true
  | _ => false

/-- Whether an expression is an application. -/
def isApp : Expr → Bool
  | app .. => true
  | _ => false

/-- Whether an expression is an atom, an application or an operation. -/
def isTerm : Expr → Bool
  | leaf _ | paren .. | record .. | app .. | operation .. => true
  | _ => false

/-- Whether an expression extends as far right as it can: a lambda, quantifier or
`let`. -/
def isTail : Expr → Bool
  | bind .. | letIn .. => true
  | _ => false

/-- The operands of a run from left to right: applications and operations are
taken apart, and nothing else is. -/
def operands : Expr → List Expr
  | app _ fn arg => operands fn ++ operands arg
  | operation _ _ left right => operands left ++ operands right
  | e => [e]

/-- Whether all operands of a run are atoms, so that nothing in it extends to the
right. What is in parentheses or in the fields of a record value is a run of its
own. -/
def isClosed (e : Expr) : Bool := e.operands.all isAtom

/-- No function type, binder or `let` occurs in the expression, at any depth. -/
inductive IsPattern : Expr → Prop
  | leaf {l} : IsPattern (.leaf l)
  | paren {span e} (inner : IsPattern e) : IsPattern (.paren span e)
  | record {span builder fields} (values : ∀ f ∈ fields, IsPattern f.value) :
      IsPattern (.record span builder fields)
  | app {span fn arg} (head : IsPattern fn) (operand : IsPattern arg) :
      IsPattern (.app span fn arg)
  | operation {span operator left right} (first : IsPattern left) (second : IsPattern right) :
      IsPattern (.operation span operator left right)

end Expr

/-! ## Trees -/

mutual

/-- The parts of an expression have the forms that they have in writing. Nothing
extends to the right inside a function, a left operand or a domain. -/
inductive Expr.Shaped : Expr → Prop
  | leaf {l} : Expr.Shaped (.leaf l)
  | paren {span e} (inner : Expr.Shaped e) : Expr.Shaped (.paren span e)
  | record {span builder fields} (values : ∀ f ∈ fields, Expr.Shaped f.value) :
      Expr.Shaped (.record span builder fields)
  | arrow {span domain codomain} (term : domain.isTerm = true) (closed : domain.isClosed = true)
      (origin : Expr.Shaped domain) (target : Expr.Shaped codomain) :
      Expr.Shaped (.arrow span domain codomain)
  | pi {span params codomain} (types : ∀ p ∈ params, Expr.Shaped p.type)
      (target : Expr.Shaped codomain) : Expr.Shaped (.pi span params codomain)
  | bind {span binder bindings body} (types : ∀ p, .typed p ∈ bindings → Expr.Shaped p.type)
      (result : Expr.Shaped body) : Expr.Shaped (.bind span binder bindings body)
  | letIn {span decls body} (each : ∀ d ∈ decls, Decl.Shaped d) (result : Expr.Shaped body) :
      Expr.Shaped (.letIn span decls body)
  | app {span fn arg} (function : fn.isApp = true ∨ fn.isAtom = true)
      (argument : arg.isAtom = true ∨ arg.isTail = true) (closed : fn.isClosed = true)
      (head : Expr.Shaped fn) (operand : Expr.Shaped arg) : Expr.Shaped (.app span fn arg)
  | operation {span operator left right} (before : left.isTerm = true)
      (after : right.isTerm = true ∨ right.isTail = true) (closed : left.isClosed = true)
      (first : Expr.Shaped left) (second : Expr.Shaped right) :
      Expr.Shaped (.operation span operator left right)

/-- The same of a declaration. The patterns of a clause are patterns, and unless
the clause defines an operator between two of them they are atoms. -/
inductive Decl.Shaped : Decl Expr → Prop
  | dataType {span header constructors} (params : ∀ p ∈ header.params, Expr.Shaped p.type)
      (type : ∀ e ∈ header.type, Expr.Shaped e) (types : ∀ g ∈ constructors, Expr.Shaped g.type) :
      Decl.Shaped (.dataType span header constructors)
  | emptyData {span header} (params : ∀ p ∈ header.params, Expr.Shaped p.type)
      (type : ∀ e ∈ header.type, Expr.Shaped e) : Decl.Shaped (.emptyData span header)
  | recordType {span header builder fields decls} (params : ∀ p ∈ header.params, Expr.Shaped p.type)
      (type : ∀ e ∈ header.type, Expr.Shaped e) (types : ∀ g ∈ fields, Expr.Shaped g.type)
      (each : ∀ d ∈ decls, Decl.Shaped d) :
      Decl.Shaped (.recordType span header builder fields decls)
  | moduleBlock {span name params decls} (types : ∀ p ∈ params, Expr.Shaped p.type)
      (each : ∀ d ∈ decls, Decl.Shaped d) : Decl.Shaped (.moduleBlock span name params decls)
  | importModule {span kind name} : Decl.Shaped (.importModule span kind name)
  | ascription {signature} (type : Expr.Shaped signature.type) : Decl.Shaped (.ascription signature)
  | clause {span patterns isOperator withPatterns withExpr rhs locals}
      (left : ∀ e ∈ patterns, Expr.Shaped e) (patternsLeft : ∀ e ∈ patterns, e.IsPattern)
      (atoms : isOperator = false → ∀ e ∈ patterns, e.isAtom = true)
      (others : ∀ e ∈ withPatterns, Expr.Shaped e) (patternsWith : ∀ e ∈ withPatterns, e.IsPattern)
      (scrutinee : ∀ e ∈ withExpr, Expr.Shaped e) (right : ∀ e ∈ rhs, Expr.Shaped e)
      (each : ∀ d ∈ locals, Decl.Shaped d) :
      Decl.Shaped (.clause span patterns isOperator withPatterns withExpr rhs locals)
  | fixity {span fixity operators} : Decl.Shaped (.fixity span fixity operators)

end

/-- All declarations of a file have the forms that they have in writing. -/
def File.Shaped (file : File) : Prop := ∀ d ∈ file.decls, d.Shaped

namespace Expr

theorem isTerm_of_isAtom {e : Expr} (h : e.isAtom = true) : e.isTerm = true := by
  cases e <;> first | rfl | cases h

/-- What is not put together by application or operators is one operand. -/
theorem operands_eq_self {e : Expr} (h : e.isAtom = true ∨ e.isTail = true) : e.operands = [e] := by
  cases e <;> first | rfl | simp [isAtom, isTail] at h

theorem IsPattern.isAtom {e : Expr} (h : e.IsPattern) (hform : e.isAtom = true ∨ e.isTail = true) :
    e.isAtom = true := by
  cases h <;> first | rfl | simp [Expr.isAtom, isTail] at hform

end Expr

namespace Fixity

/-! ## Patterns -/

theorem ok_of_bind {α β : Type} {x : Except Diagnostic α} {f : α → Except Diagnostic β} {b : β}
    (h : (x >>= f) = .ok b) : ∃ a, x = .ok a ∧ f a = .ok b := by
  cases x with
  | error d => cases h
  | ok a => exact ⟨a, rfl, h⟩

mutual

/-- What passes the check is a pattern. -/
theorem isPattern_of_ensurePattern : ∀ e : Expr, ensurePattern e = .ok () → e.IsPattern
  | .leaf _ => fun _ => .leaf
  | .paren _ e => fun h => .paren (isPattern_of_ensurePattern e (by rwa [ensurePattern] at h))
  | .record _ _ fields => fun h =>
    .record (isPattern_of_ensurePatternFields fields (by rwa [ensurePattern] at h))
  | .app _ fn arg => fun h => by
    rw [ensurePattern] at h
    obtain ⟨_, hfn, harg⟩ := ok_of_bind h
    exact .app (isPattern_of_ensurePattern fn hfn) (isPattern_of_ensurePattern arg harg)
  | .operation _ _ left right => fun h => by
    rw [ensurePattern] at h
    obtain ⟨_, hleft, hright⟩ := ok_of_bind h
    exact .operation (isPattern_of_ensurePattern left hleft)
      (isPattern_of_ensurePattern right hright)
  | .arrow .. | .pi .. | .bind .. | .letIn .. => fun h => by
    rw [ensurePattern] at h
    cases h

theorem isPattern_of_ensurePatternFields : ∀ fields : List (Assignment Expr),
    ensurePatternFields fields = .ok () → ∀ f ∈ fields, f.value.IsPattern
  | [] => by simp
  | ⟨_, _, value⟩ :: fields => fun h => by
    rw [ensurePatternFields] at h
    obtain ⟨_, hvalue, hfields⟩ := ok_of_bind h
    exact List.forall_mem_cons.2 ⟨isPattern_of_ensurePattern value hvalue,
      isPattern_of_ensurePatternFields fields hfields⟩

end

/-- The head of an application that is a pattern, and its arguments, are atoms. -/
theorem shaped_spine {e : Expr} (hshaped : e.Shaped) (hpattern : e.IsPattern)
    (hform : e.isApp = true ∨ e.isAtom = true) :
    ∀ e' ∈ e.spine, e'.Shaped ∧ e'.IsPattern ∧ e'.isAtom = true := by
  induction e using Expr.spine.induct with
  | case1 _ fn arg ih =>
    cases hshaped with
    | app function argument _ head operand =>
      cases hpattern with
      | app headPattern operandPattern =>
        rw [Expr.spine]
        exact List.forall_mem_append.2 ⟨ih head headPattern function,
          List.forall_mem_singleton.2 ⟨operand, operandPattern, operandPattern.isAtom argument⟩⟩
  | case2 e hother =>
    have hatom : e.isAtom = true := by
      rcases hform with happ | hatom
      · cases e with
        | app span fn arg => exact absurd rfl (hother span fn arg)
        | _ => cases happ
      · exact hatom
    rw [Expr.spine]
    · exact List.forall_mem_singleton.2 ⟨hshaped, hpattern, hatom⟩
    · exact hother

/-- The defined name and its patterns, of a left-hand side that is a pattern. -/
theorem shaped_leftHandSide {e : Expr} (hshaped : e.Shaped) (hpattern : e.IsPattern) :
    ∀ e' ∈ (leftHandSide e).1, e'.Shaped ∧ e'.IsPattern ∧
      ((leftHandSide e).2 = false → e'.isAtom = true) := by
  have hspine : (e.isApp = true ∨ e.isAtom = true) →
      ∀ e' ∈ e.spine, e'.Shaped ∧ e'.IsPattern ∧ (false = false → e'.isAtom = true) :=
    fun hform e' he' => (shaped_spine hshaped hpattern hform e' he').imp_right
      (.imp_right fun hatom _ => hatom)
  cases hpattern with
  | leaf | paren | record => exact hspine (.inr rfl)
  | app => exact hspine (.inl rfl)
  | operation first second =>
    cases hshaped with
    | operation _ _ _ left right =>
      simp only [leftHandSide, List.forall_mem_cons]
      exact ⟨⟨.leaf, .leaf, nofun⟩, ⟨left, first, nofun⟩, ⟨right, second, nofun⟩, by simp⟩

/-! ## Runs -/

/-- The operand that a member of a run is, if it is one. -/
def Piece.operand? : Piece → Option Expr
  | .operand e => some e
  | .operator _ => none

/-- Members of a run that are put together by application and operators only. -/
def Sided (pieces : List Piece) : Prop :=
  ∀ e, .operand e ∈ pieces → e.isAtom = true ∨ e.isTail = true

/-- The operands of a group are those of its members. -/
theorem Grouped.operands_eq {pieces : List Piece} {e : Expr} (h : Grouped pieces e)
    (hsided : Sided pieces) : e.operands = pieces.filterMap Piece.operand? := by
  induction h with
  | operand e => exact Expr.operands_eq_self (hsided e List.mem_cons_self)
  | apply arg _ _ ih =>
    have harg := Expr.operands_eq_self (hsided arg (by simp))
    rw [Expr.apply, Expr.operands, ih fun e he => hsided e (List.mem_append_left _ he), harg,
      List.filterMap_append]
    rfl
  | operate op _ _ ihl ihr =>
    rw [Expr.operate, Expr.operands, ihl fun e he => hsided e (List.mem_append_left _ he),
      ihr fun e he => hsided e (by simp [he]), List.filterMap_append]
    rfl

theorem Grouped.ne_nil {pieces : List Piece} {e : Expr} (h : Grouped pieces e) : pieces ≠ [] := by
  cases h <;> simp

/-- A group is one member of the run, an application without operators, or an
operation. -/
theorem Grouped.form {pieces : List Piece} {e : Expr} (h : Grouped pieces e) :
    pieces = [.operand e] ∨ e.isTerm = true ∧
      ((∀ op, .operator op ∉ pieces) → e.isApp = true) := by
  cases h with
  | operand e => exact .inl rfl
  | apply arg _ _ => exact .inr ⟨rfl, fun _ => rfl⟩
  -- The operator is itself a member of the run.
  | operate op _ _ => exact .inr ⟨rfl, fun h => absurd (by simp) (h op)⟩

/-- The members of a run have the forms of operands, and only the last one may
extend to the right. -/
structure Edged (pieces : List Piece) : Prop where
  shaped : ∀ e, .operand e ∈ pieces → e.Shaped
  sided : Sided pieces
  closed : ∀ e, .operand e ∈ pieces.dropLast → e.isAtom = true

namespace Edged

variable {pieces before after : List Piece}

theorem right (h : Edged (before ++ after)) (hafter : after ≠ []) : Edged after where
  shaped e he := h.shaped e (List.mem_append_right _ he)
  sided e he := h.sided e (List.mem_append_right _ he)
  closed e he := h.closed e (by
    rw [List.dropLast_append_of_ne_nil hafter]
    exact List.mem_append_right _ he)

/-- What stands before the last member. -/
theorem left (h : Edged (before ++ after)) (hafter : after ≠ []) :
    Edged before ∧ ∀ e, .operand e ∈ before → e.isAtom = true := by
  have hatoms : ∀ e, .operand e ∈ before → e.isAtom = true := by
    intro e he
    refine h.closed e ?_
    rw [List.dropLast_append_of_ne_nil hafter]
    exact List.mem_append_left _ he
  exact ⟨⟨fun e he => h.shaped e (List.mem_append_left _ he),
    fun e he => .inl (hatoms e he), fun e he => hatoms e ((List.dropLast_sublist _).subset he)⟩, hatoms⟩

end Edged

/-- A group of atoms is closed. -/
theorem Grouped.isClosed {pieces : List Piece} {e : Expr} (h : Grouped pieces e)
    (hatoms : ∀ e, .operand e ∈ pieces → e.isAtom = true) : e.isClosed = true := by
  rw [Expr.isClosed, h.operands_eq fun e he => .inl (hatoms e he), List.all_eq_true]
  intro e' he'
  obtain ⟨piece, hpiece, hoperand⟩ := List.mem_filterMap.1 he'
  cases piece with
  | operand e => exact Option.some.inj hoperand ▸ hatoms e hpiece
  | operator op => cases hoperand

/-- A group of atoms is a term. -/
theorem Grouped.isTerm {pieces : List Piece} {e : Expr} (h : Grouped pieces e)
    (hatoms : ∀ e, .operand e ∈ pieces → e.isAtom = true) : e.isTerm = true := by
  rcases h.form with rfl | ⟨hterm, -⟩
  · exact Expr.isTerm_of_isAtom (hatoms e List.mem_cons_self)
  · exact hterm

/-- The parts of a group have the forms that they have in the run. -/
theorem Grouped.shaped {pieces : List Piece} {e : Expr} (h : Grouped pieces e)
    (hedged : Edged pieces) : e.Shaped := by
  induction h with
  | operand e => exact hedged.shaped e List.mem_cons_self
  | @apply pieces fn arg tight head ih =>
    obtain ⟨hfn, hatoms⟩ := hedged.left (List.cons_ne_nil _ _)
    refine .app ?_ (hedged.sided arg (by simp)) (head.isClosed hatoms) (ih hfn)
      (hedged.shaped arg (by simp))
    -- Arguments are applied before operators, so no operator is in the function.
    rcases head.form with rfl | ⟨-, happ⟩
    · exact .inr (hatoms fn List.mem_cons_self)
    · exact .inl (happ tight)
  | @operate before after left right op first second ihl ihr =>
    obtain ⟨hleft, hatoms⟩ := hedged.left (List.cons_ne_nil _ _)
    -- The right operand ends where the run does, and may extend as far.
    have hright : Edged after := by
      have hedged := hedged.right (List.cons_ne_nil _ _)
      rw [← List.singleton_append] at hedged
      exact hedged.right second.ne_nil
    refine .operation (first.isTerm hatoms) ?_ (first.isClosed hatoms) (ihl hleft) (ihr hright)
    rcases second.form with rfl | ⟨hterm, -⟩
    · exact (hright.sided right List.mem_cons_self).imp_left Expr.isTerm_of_isAtom
    · exact .inl hterm

/-! ## Trees -/

section

variable {limit maxNesting : Nat} {table : Table} {levels : Nat}

variable (maxNesting) in
/-- What the expression resolves to has the forms of its parts, and that of the
expression if it extends to the right. -/
def ShapesExpr (e : Concrete.Expr) : Prop :=
  ∀ table levels r, ResolvesTo maxNesting table levels e r →
    r.Shaped ∧ (e.isForm = true → r.isTail = true)

variable (maxNesting) in
/-- The same of an atom that is an operand, or a typed parameter. -/
def ShapesAtom (a : Concrete.Atom) : Prop :=
  (∀ table levels r, (resolveAtom maxNesting table levels a).result = .ok r →
    r.Shaped ∧ (r.isAtom = true ∨ a.isTail = true ∧ r.isTail = true)) ∧
  ∀ p, a = .param p → ShapesExpr maxNesting p.type

variable (maxNesting) in
/-- The same of a declaration. -/
def ShapesDecl (d : Decl Concrete.Expr) : Prop :=
  ∀ table levels r, (resolveDecl maxNesting table levels d).result = .ok r → r.Shaped

theorem ShapesExpr.shaped {e : Concrete.Expr} (h : ShapesExpr maxNesting e) (r : Expr)
    (hr : ResolvesTo maxNesting table levels e r) : r.Shaped := (h table levels r hr).1

/-- An operand has the form of its atom. -/
theorem ShapesAtom.piece {a : Concrete.Atom} {e : Expr} (ha : ShapesAtom maxNesting a)
    (h : PieceResult maxNesting table levels a (.operand e)) :
    e.Shaped ∧ (e.isAtom = true ∨ a.isTail = true ∧ e.isTail = true) := by
  cases h with
  | operand _ inner => exact ha.1 table levels e inner

/-- Atoms that do not extend to the right are closed operands. -/
theorem isAtom_of_members {atoms : List Concrete.Atom} {pieces : List Piece}
    (hrel : List.Forall₂ (PieceResult maxNesting table levels) atoms pieces)
    (hatoms : ∀ a ∈ atoms, ShapesAtom maxNesting a) (htail : ∀ a ∈ atoms, a.isTail = false) :
    ∀ e, .operand e ∈ pieces → e.isAtom = true := by
  have hpieces : ∀ piece ∈ pieces, ∀ e, piece = .operand e → e.isAtom = true := by
    refine forall_mem_of_forall₂ hrel (fun a ha piece hpiece htail e he => ?_) htail
    rcases ((hatoms a ha).piece (he ▸ hpiece)).2 with hatom | ⟨htail', -⟩
    · exact hatom
    · rw [htail] at htail'
      cases htail'
  exact fun e he => hpieces _ he e rfl

/-- Where only the last atom of a run extends to the right, only its last operand
does. -/
theorem edged_of_members {atoms : List Concrete.Atom} {pieces : List Piece}
    (hrel : List.Forall₂ (PieceResult maxNesting table levels) atoms pieces)
    (hatoms : ∀ a ∈ atoms, ShapesAtom maxNesting a)
    (htail : ∀ a ∈ atoms.dropLast, a.isTail = false) : Edged pieces := by
  have hpieces : ∀ piece ∈ pieces, ∀ e, piece = .operand e →
      e.Shaped ∧ (e.isAtom = true ∨ e.isTail = true) := by
    refine forall_mem_of_forall₂ hrel (fun a _ piece hpiece ha e he => ?_) hatoms
    obtain ⟨hshaped, hform⟩ := ha.piece (he ▸ hpiece)
    exact ⟨hshaped, hform.imp_right And.right⟩
  have hlast : List.Forall₂ (PieceResult maxNesting table levels) atoms.dropLast
      pieces.dropLast := by
    rw [List.dropLast_eq_take, List.dropLast_eq_take, hrel.length_eq]
    exact List.forall₂_take _ hrel
  exact ⟨fun e he => (hpieces _ he e rfl).1, fun e he => (hpieces _ he e rfl).2,
    isAtom_of_members hlast (fun a ha => hatoms a ((List.dropLast_sublist _).subset ha)) htail⟩

theorem shaped_patterns {es : List Concrete.Expr} {rs : List Expr}
    (hes : ∀ e ∈ es, ShapesExpr maxNesting e)
    (h : List.Forall₂ (fun e r => ResolvesTo maxNesting table levels e r ∧
      ensurePattern r = .ok ()) es rs) :
    (∀ e ∈ rs, e.Shaped) ∧ ∀ e ∈ rs, e.IsPattern :=
  ⟨forall_mem_of_forall₂ h (fun _ _ r hr hs => hs.shaped r hr.1) hes,
    forall_mem_of_forall₂ h (fun _ _ r hr _ => isPattern_of_ensurePattern r hr.2) hes⟩

theorem shaped_resolveDecls {ds : List (Decl Concrete.Expr)}
    (hds : ∀ d ∈ ds, ShapesDecl maxNesting d) :
    ∀ r ∈ (resolveDecls maxNesting table levels ds).1, r.Shaped := by
  intro r hr
  obtain ⟨d, hd, hresult⟩ := exists_of_mem_resolveDecls hr
  exact hds d hd table levels r hresult

/-- What well-formed trees resolve to has the forms of its parts. -/
theorem shapes (limit maxNesting : Nat) : Concrete.Cases
    (fun e => ∀ n, e.WellFormed limit n → ShapesExpr maxNesting e)
    (fun a => ∀ n, a.WellFormed limit n → ShapesAtom maxNesting a)
    (fun d => ∀ n, Concrete.Decl.WellFormed limit n d → ShapesDecl maxNesting d) where
  run := by
    intro span atoms ih n hwf table levels r hr
    cases hwf with
    | run shape each =>
      cases exprResult_of_ok hr with
      | run members group =>
        have hedged := edged_of_members members (fun a ha => ih a ha _ (each a ha))
          shape.dropLast_isTail
        exact ⟨(grouped_of_result group).shaped hedged, fun h => by cases h⟩
  arrow := by
    intro span domain codomain ihs ih n hwf table levels r hr
    cases hwf with
    | arrow _ isTail each target =>
      have hdomain := fun a ha => ihs a ha _ (each a ha)
      cases exprResult_of_ok hr with
      | pi source result =>
        refine ⟨.pi (forall_params source fun p hp => ?_) ((ih _ target).shaped _ result),
          fun h => by cases h⟩
        exact ((hdomain _ (List.mem_map_of_mem hp)).2 p rfl).shaped
      | arrow members group result =>
        -- The grammar lets no tail stand before an arrow, not even at the right edge.
        have hatoms := isAtom_of_members members hdomain isTail
        have hedged := edged_of_members members hdomain
          fun a ha => isTail a ((List.dropLast_sublist _).subset ha)
        have hgrouped := grouped_of_result group
        exact ⟨.arrow (hgrouped.isTerm hatoms) (hgrouped.isClosed hatoms) (hgrouped.shaped hedged)
          ((ih _ target).shaped _ result), fun h => by cases h⟩
  bind := by
    intro span binder bindings body ihs ih n hwf table levels r hr
    cases hwf with
    | bind _ _ types inner =>
      cases exprResult_of_ok hr with
      | bind bound result =>
        exact ⟨.bind (forall_bindings bound fun p hp => (ihs p hp _ (types p hp)).shaped)
          ((ih _ inner).shaped _ result), fun _ => rfl⟩
  letIn := by
    intro span decls body ihs ih n hwf table levels r hr
    cases hwf with
    | letIn each inner =>
      cases exprResult_of_ok hr with
      | letIn result =>
        exact ⟨.letIn (shaped_resolveDecls fun d hd => ihs d hd _ (each d hd))
          ((ih _ inner).shaped _ result), fun _ => rfl⟩
  leaf := by
    intro l n _
    refine ⟨fun table levels r hr => ?_, by simp⟩
    cases atomResult_of_ok hr with
    | leaf => exact ⟨.leaf, .inl rfl⟩
  paren := by
    intro span e ih n hwf
    refine ⟨fun table levels r hr => ?_, by simp⟩
    cases hwf with
    | paren inner =>
      cases atomResult_of_ok hr with
      | paren result => exact ⟨.paren ((ih _ inner).shaped _ result), .inl rfl⟩
  param := by
    intro p ih n hwf
    cases hwf with
    | param _ type =>
      -- As an operand a parameter is a problem.
      refine ⟨fun table levels r hr => ?_, ?_⟩
      · cases atomResult_of_ok hr
      · rintro _ ⟨⟩
        exact ih _ type
  record := by
    intro span builder fields ihs n hwf
    refine ⟨fun table levels r hr => ?_, by simp⟩
    cases hwf with
    | record _ inner =>
      cases atomResult_of_ok hr with
      | record values =>
        exact ⟨.record (forall_assignments values fun f hf => (ihs f hf _ (inner f hf)).shaped),
          .inl rfl⟩
  tail := by
    intro e ih n hwf
    refine ⟨fun table levels r hr => ?_, by simp⟩
    cases hwf with
    | tail form inner =>
      cases atomResult_of_ok hr with
      | tail result =>
        obtain ⟨hshaped, htail⟩ := ih _ inner table levels r result
        exact ⟨hshaped, .inr ⟨rfl, htail form⟩⟩
  dataType := by
    intro span header constructors ihps iht ihs n hwf table levels r hr
    cases hwf with
    | dataType _ params type _ inner =>
      cases declResult_of_ok hr with
      | dataType head types =>
        exact .dataType (forall_params head.params fun p hp => (ihps p hp _ (params p hp)).shaped)
          (forall_option head.type fun e he => (iht e he _ (type e he)).shaped)
          (forall_signatures types fun g hg => (ihs g hg _ (inner g hg)).shaped)
  emptyData := by
    intro span header ihps iht n hwf table levels r hr
    cases hwf with
    | emptyData _ params type =>
      cases declResult_of_ok hr with
      | emptyData head =>
        exact .emptyData (forall_params head.params fun p hp => (ihps p hp _ (params p hp)).shaped)
          (forall_option head.type fun e he => (iht e he _ (type e he)).shaped)
  recordType := by
    intro span header builder fields decls ihps iht ihs ihds n hwf table levels r hr
    cases hwf with
    | recordType _ params type _ inner each =>
      cases declResult_of_ok hr with
      | recordType head types =>
        exact .recordType (forall_params head.params fun p hp => (ihps p hp _ (params p hp)).shaped)
          (forall_option head.type fun e he => (iht e he _ (type e he)).shaped)
          (forall_signatures types fun g hg => (ihs g hg _ (inner g hg)).shaped)
          (shaped_resolveDecls fun d hd => ihds d hd _ (each d hd))
  moduleBlock := by
    intro span name params decls ihps ihds n hwf table levels r hr
    cases hwf with
    | moduleBlock _ _ types each =>
      cases declResult_of_ok hr with
      | moduleBlock head =>
        exact .moduleBlock (forall_params head fun p hp => (ihps p hp _ (types p hp)).shaped)
          (shaped_resolveDecls fun d hd => ihds d hd _ (each d hd))
  importModule := by
    intro span kind name n _ table levels r hr
    cases declResult_of_ok hr with
    | importModule => exact .importModule
  ascription := by
    intro signature ih n hwf table levels r hr
    cases hwf with
    | ascription _ inner =>
      cases declResult_of_ok hr with
      | ascription result => exact .ascription ((ih _ inner).shaped _ result.type)
  clause := by
    intro span patterns isOperator withPatterns withExpr rhs locals ihs ihws ihw ihr ihds n hwf
      table levels r hr
    cases hwf with
    | clause _ wellLeft wellOthers wellScrutinee wellRight _ _ each =>
      cases declResult_of_ok hr with
      | clause left others scrutinee right =>
        -- A parsed clause has one expression on the left, taken apart when it is resolved.
        obtain ⟨e, es, ⟨he, hpattern⟩, hnil, rfl⟩ := List.forall₂_cons_left_iff.1 left
        obtain rfl := List.forall₂_nil_left_iff.1 hnil
        have hside := shaped_leftHandSide ((ihs _ List.mem_cons_self _ wellLeft).shaped _ he)
          (isPattern_of_ensurePattern e hpattern)
        obtain ⟨hshaped, hpatterns⟩ := shaped_patterns
          (fun e he => ihws e he _ (wellOthers e he)) others
        rw [List.map_singleton, List.flatMap_singleton, List.any_cons, List.any_nil, Bool.or_false]
        exact .clause (fun e he => (hside e he).1) (fun e he => (hside e he).2.1)
          (fun hop e he => (hside e he).2.2 hop) hshaped hpatterns
          (forall_option scrutinee fun e he => (ihw e he _ (wellScrutinee e he)).shaped)
          (forall_option right fun e he => (ihr e he _ (wellRight e he)).shaped)
          (shaped_resolveDecls fun d hd => ihds d hd _ (each d hd))
  fixity := by
    intro span fixity operators n _ table levels r hr
    cases declResult_of_ok hr with
    | fixity => exact .fixity

end

end Fixity

namespace Source

/-- In every parsed tree the parts have the forms that they have in writing,
whatever problems the text has. -/
theorem parse_shaped (options : Options) (source : String) : (parse options source).file.Shaped := by
  have hformed := Parser.file_formed options (.ofLexemes (tokens options source).lexemes)
  have hds : ∀ d ∈ (declarations options source).1, Fixity.ShapesDecl options.maxNesting d :=
    fun d hd => (Fixity.shapes options.maxPrecedence options.maxNesting).decl d _
      (hformed d hd).wellFormed
  exact Fixity.shaped_resolveDecls hds

end Source

end Offside
