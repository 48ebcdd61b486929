-- SUMMARY: Resolving operators does not depend on where a tree stands.
import Offside.Proofs.Expr.Respan
import Offside.Proofs.Fixity.Resolution

/-! # Resolution up to spans

Places only say where a problem is. So trees that agree up to spans resolve to
trees that agree up to spans, if one of them resolves without a problem. -/

namespace Offside

/-! ## Values -/

namespace Report

variable {α β γ : Type}

/-- The value of a computation that records no problem. -/
def value? (r : Report α) : Option α := if r.diagnostics.isEmpty then r.result.toOption else none

theorem value?_eq_some_iff {r : Report α} {a : α} : r.value? = some a ↔ r.Gives a := by
  obtain ⟨ds, result⟩ := r
  cases ds <;> cases result <;> simp [value?, Gives, Except.toOption]

@[simp] theorem value?_pure (a : α) : (pure a : Report α).value? = some a := rfl

@[simp] theorem value?_fail (d : Diagnostic) : (fail d : Report α).value? = none := rfl

@[simp] theorem value?_raise (result : Except Diagnostic α) :
    (raise result).value? = result.toOption := rfl

@[simp] theorem value?_bind (r : Report α) (next : α → Report β) :
    (r >>= next).value? = r.value?.bind fun a => (next a).value? := by
  obtain ⟨ds, result⟩ := r
  cases ds <;> cases result <;> simp [value?, bind, andThen, Except.toOption]

@[simp] theorem value?_map (f : α → β) (r : Report α) : (f <$> r).value? = r.value?.map f := by
  change (r >>= fun a => pure (f a)).value? = _
  rw [value?_bind]
  cases r.value? <;> rfl

theorem value?_noted (value : α × List Diagnostic) :
    (noted value).value? = if value.2.isEmpty then some value.1 else none := rfl

/-- Failures that were kept are raised in the end. -/
theorem value?_defer_defer (r : Report α) (r' : Report β) (next : α → β → Option γ) :
    (r.defer.value?.bind fun x => r'.defer.value?.bind fun y =>
      (raise x).value?.bind fun a => (raise y).value?.bind fun b => next a b) =
      r.value?.bind fun a => r'.value?.bind fun b => next a b := by
  obtain ⟨ds, result⟩ := r
  obtain ⟨ds', result'⟩ := r'
  cases ds <;> cases ds' <;> cases result <;> cases result' <;>
    simp [value?, defer, raise, Except.toOption]

end Report

theorem toOption_bind {ε α β : Type} (x : Except ε α) (f : α → Except ε β) :
    (x >>= f).toOption = x.toOption.bind fun a => (f a).toOption := by
  cases x <;> rfl

/-! ## Chains -/

theorem merge_default : (default : Span).merge default = default := rfl

@[simp] theorem Expr.span_bare (e : Expr) : e.bare.span = default := by
  cases e with
  | leaf l => cases l <;> rfl
  | paren | record | arrow | pi | bind | letIn | app | operation => rfl

theorem Expr.bare_apply (fn arg : Expr) : (fn.apply arg).bare = fn.bare.apply arg.bare := by
  rw [apply, apply, Expr.bare, span_bare, span_bare, merge_default]

theorem Expr.bare_operate (operator : Name) (left right : Expr) :
    (operate operator left right).bare =
      operate (operator.respan .bare) left.bare right.bare := by
  rw [operate, operate, Expr.bare, span_bare, span_bare, merge_default]

theorem Expr.spine_bare : ∀ e : Expr, e.bare.spine = e.spine.map Expr.bare
  | .app _ fn arg => by rw [Expr.bare, spine, spine_bare fn, spine, List.map_append, List.map_singleton]
  | .leaf _ | .paren .. | .record .. | .arrow .. | .pi .. | .bind .. | .letIn .. | .operation .. => by
    simp only [Expr.bare, spine, List.map_singleton]

namespace Fixity

def Operator.bare (op : Operator) : Operator := ⟨op.name.respan .bare, op.fixity⟩

def Piece.bare : Piece → Piece
  | .operand e => .operand e.bare
  | .operator op => .operator op.bare

namespace Chain

def bareLink (link : Operator × Expr) : Operator × Expr := (link.1.bare, link.2.bare)

def bare (chain : Chain) : Chain := ⟨chain.head.bare, chain.links.map bareLink⟩

theorem build_bare (operand : Expr) (pieces : List Piece) :
    (build operand.bare (pieces.map Piece.bare)).toOption =
      (build operand pieces).toOption.map bare := by
  fun_induction build operand pieces with
  | case1 operand => rfl
  | case2 operand arg pieces ih =>
    rw [List.map_cons, Piece.bare, build, ← Expr.bare_apply, ih]
  | case3 | case4 => rfl
  | case5 operand op next pieces ih =>
    rw [List.map_cons, List.map_cons, Piece.bare, Piece.bare, build, toOption_bind, toOption_bind, ih]
    cases build next pieces <;> rfl

theorem ofPieces_bare (span span' : Span) (pieces : List Piece) :
    (ofPieces span' (pieces.map Piece.bare)).toOption =
      (ofPieces span pieces).toOption.map bare := by
  match pieces with
  | [] => rfl
  | .operator op :: pieces => rfl
  | .operand first :: pieces => exact build_bare first pieces

theorem toOption_checkMeeting (first second : Operator) :
    (checkMeeting first second).toOption =
      if first.fixity.precedence ≠ second.fixity.precedence then some ()
      else if first.fixity.assoc ≠ second.fixity.assoc then none
      else if second.fixity.assoc = .none then none else some () := by
  simp only [checkMeeting, apply_ite Except.toOption]
  rfl

theorem checkPrevious_bare (previous : Option Operator) (op : Operator) :
    (checkPrevious (previous.map Operator.bare) op.bare).toOption =
      (checkPrevious previous op).toOption := by
  cases previous with
  | none => rfl
  | some previous =>
    rw [Option.map_some, checkPrevious, checkPrevious, toOption_checkMeeting, toOption_checkMeeting]
    rfl

theorem gathered_bare (budget floor : Nat) (previous : Option Operator) (operand : Expr)
    (links : List (Operator × Expr)) :
    (gathered budget floor (previous.map Operator.bare) operand.bare (links.map bareLink)).toOption =
      (gathered budget floor previous operand links).toOption.map fun r =>
        (r.1.bare, r.2.map bareLink) := by
  induction hn : links.length using Nat.strongRecOn
    generalizing budget floor previous operand links with
  | _ n ih =>
    subst hn
    cases links with
    | nil => rw [List.map_nil, gathered_nil, gathered_nil]; rfl
    | cons link links =>
      obtain ⟨op, next⟩ := link
      rw [List.map_cons, bareLink, gathered_cons, gathered_cons]
      change Except.toOption (if op.fixity.precedence < floor then _ else _) = _
      split
      · rfl
      · rw [toOption_bind, toOption_bind, checkPrevious_bare]
        cases checkPrevious previous op with
        | error d => rfl
        | ok =>
          cases budget with
          | zero => rfl
          | succ budget =>
            change Except.toOption (_ >>= _) = Option.map _ (Except.toOption (_ >>= _))
            rw [toOption_bind, toOption_bind,
              show (some op.bare : Option Operator) = (some op).map Operator.bare from rfl,
              show rightFloor op.bare.fixity = rightFloor op.fixity from rfl,
              ih links.length (by simp) budget (rightFloor op.fixity) (some op) next links rfl]
            cases hright : gathered budget (rightFloor op.fixity) (some op) next links with
            | error d => rfl
            | ok r =>
              have hlength := length_gathered hright
              have hrest := ih r.2.length (by simpa using Nat.lt_succ_of_le hlength) (budget + 1)
                floor (some op) (.operate op.name operand r.1) r.2 rfl
              rw [Expr.bare_operate] at hrest
              exact hrest

theorem group_bare (budget : Nat) (chain : Chain) :
    (chain.bare.group budget).toOption = (chain.group budget).toOption.map Expr.bare := by
  have htoOption : ∀ x : Except Diagnostic (Expr × List (Operator × Expr)),
      (x.map (·.1)).toOption = x.toOption.map (·.1) := by
    intro x
    cases x <;> rfl
  have hbare := gathered_bare budget 0 none chain.head chain.links
  rw [group_eq, group_eq, htoOption, htoOption]
  change Option.map _ (gathered budget 0 (Option.map Operator.bare none) chain.head.bare
    (chain.links.map bareLink)).toOption = _
  rw [hbare, Option.map_map, Option.map_map]
  rfl

end Chain

theorem value?_groupPieces_bare (budget : Nat) (span span' : Span) (pieces : List Piece) :
    (groupPieces budget span' (pieces.map Piece.bare)).value? =
      (groupPieces budget span pieces).value?.map Expr.bare := by
  rw [groupPieces_eq, groupPieces_eq, Report.value?_raise, Report.value?_raise, toOption_bind,
    toOption_bind, Chain.ofPieces_bare span]
  cases Chain.ofPieces span pieces with
  | error d => rfl
  | ok chain => exact Chain.group_bare budget chain

/-! ## Tables -/

theorem isEmpty_append {α : Type} (xs ys : List α) :
    (xs ++ ys).isEmpty = (xs.isEmpty && ys.isEmpty) := by
  cases xs <;> rfl

def Entry.bare (entry : Entry) : Entry := { entry with span := default }

def Table.bare (table : Table) : Table := ⟨table.scopes.map (List.map Entry.bare)⟩

theorem find?_bare (scope : Scope) (operator : String) :
    Scope.find? (scope.map Entry.bare) operator = (scope.find? operator).map Entry.bare := by
  rw [Scope.find?, List.find?_map]
  rfl

theorem lookup?_bare (table : Table) (operator : String) :
    table.bare.lookup? operator = (table.lookup? operator).map Entry.bare := by
  obtain ⟨scopes⟩ := table
  rw [Table.lookup?, Table.lookup?, Table.bare]
  induction scopes with
  | nil => rfl
  | cons scope scopes ih =>
    rw [List.map_cons, List.findSome?_cons, List.findSome?_cons, find?_bare]
    cases scope.find? operator with
    | none => exact ih
    | some entry => rfl

theorem declare_bare (fixity : Fixity) (span : Span) (scope : Scope) (operator : Name) :
    (Scope.declare fixity default (scope.map Entry.bare) (operator.respan .bare)).1 =
        (scope.declare fixity span operator).1.map Entry.bare ∧
      (Scope.declare fixity default (scope.map Entry.bare) (operator.respan .bare)).2.isEmpty =
        (scope.declare fixity span operator).2.isEmpty := by
  rw [Scope.declare, Scope.declare, Name.text_respan, find?_bare]
  cases scope.find? operator.text with
  | none => exact ⟨by simp [Entry.bare], rfl⟩
  | some previous => exact ⟨rfl, rfl⟩

theorem declareAll_bare (fixity : Fixity) (span : Span) (scope : Scope) (operators : List Name) :
    (Scope.declareAll fixity default (scope.map Entry.bare)
        (operators.map (Name.respan .bare))).1 =
        (scope.declareAll fixity span operators).1.map Entry.bare ∧
      (Scope.declareAll fixity default (scope.map Entry.bare)
        (operators.map (Name.respan .bare))).2.isEmpty =
        (scope.declareAll fixity span operators).2.isEmpty := by
  induction operators generalizing scope with
  | nil => exact ⟨rfl, rfl⟩
  | cons operator operators ih =>
    obtain ⟨hscope, hnone⟩ := declare_bare fixity span scope operator
    obtain ⟨hscopes, hnones⟩ := ih (scope.declare fixity span operator).1
    simp only [List.map_cons, Scope.declareAll, hscope, hscopes, isEmpty_append, hnone, hnones,
      and_self]

open Concrete (exprRespan atomRespan paramRespan declRespan)

theorem collect_bare (scope : Scope) (decls : List (Decl Concrete.Expr)) :
    (Scope.collect (scope.map Entry.bare) (decls.map (declRespan .bare))).1 =
        (scope.collect decls).1.map Entry.bare ∧
      (Scope.collect (scope.map Entry.bare) (decls.map (declRespan .bare))).2.isEmpty =
        (scope.collect decls).2.isEmpty := by
  induction decls generalizing scope with
  | nil => exact ⟨rfl, rfl⟩
  | cons d decls ih =>
    cases d with
    | fixity span fixity operators =>
      obtain ⟨hscope, hnone⟩ := declareAll_bare fixity span scope operators
      obtain ⟨hscopes, hnones⟩ := ih (scope.declareAll fixity span operators).1
      simp only [List.map_cons, declRespan, Scope.collect, Respan.bare_other, hscope, hscopes,
        isEmpty_append, hnone, hnones, and_self]
    | dataType | emptyData | recordType | moduleBlock | importModule | ascription | clause =>
      exact ih scope

theorem value?_enter_bare (table : Table) (decls : List (Decl Concrete.Expr)) :
    (Report.noted (table.bare.enter (decls.map (declRespan .bare)))).value? =
      (Report.noted (table.enter decls)).value?.map Table.bare := by
  obtain ⟨hscope, hnone⟩ := collect_bare [] decls
  rw [List.map_nil] at hscope hnone
  simp only [Report.value?_noted, Table.enter, hscope, hnone]
  split <;> rfl

theorem operator?_bare (table : Table) (a : Concrete.Atom) :
    operator? table.bare (atomRespan .bare a) = (operator? table a).map Operator.bare := by
  cases a with
  | leaf l =>
    cases l with
    | name q =>
      obtain ⟨span, segments⟩ := q
      match segments with
      | [] => rfl
      | [n] =>
        change (table.bare.lookup? n.text >>= fun entry => some _) =
          Option.map _ (table.lookup? n.text >>= fun entry => some _)
        rw [lookup?_bare]
        cases table.lookup? n.text <;> rfl
      | _ :: _ :: _ => rfl
    | hole | unit | type | integer => rfl
  | paren | param | record | tail => rfl

theorem isParam_bare (a : Concrete.Atom) : isParam (atomRespan .bare a) = isParam a := by
  cases a <;> rfl

/-! ## Patterns -/

theorem ensurePattern_bare : Expr.Cases
    (fun e => (ensurePattern e.bare).toOption = (ensurePattern e).toOption) (fun _ => True) where
  leaf l := rfl
  paren span e he := by rw [Expr.bare, ensurePattern, ensurePattern, he]
  record span builder fields hfields := by
    rw [Expr.bare, ensurePattern, ensurePattern, bareAssignments_eq]
    induction fields with
    | nil => rfl
    | cons f fields ih =>
      rw [List.map_cons, ensurePatternFields, ensurePatternFields, toOption_bind, toOption_bind,
        hfields f List.mem_cons_self, ih fun f hf => hfields f (List.mem_cons_of_mem _ hf)]
  app span fn arg hfn harg := by
    rw [Expr.bare, ensurePattern, ensurePattern, toOption_bind, toOption_bind, hfn, harg]
  operation span operator left right hleft hright := by
    rw [Expr.bare, ensurePattern, ensurePattern, toOption_bind, toOption_bind, hleft, hright]
  arrow _ _ _ _ _ := rfl
  pi _ _ _ _ _ := rfl
  bind _ _ _ _ _ _ := rfl
  letIn _ _ _ _ _ := rfl
  dataType _ _ _ _ _ _ := trivial
  emptyData _ _ _ _ := trivial
  recordType _ _ _ _ _ _ _ _ _ := trivial
  moduleBlock _ _ _ _ _ _ := trivial
  importModule _ _ _ := trivial
  ascription _ _ := trivial
  clause _ _ _ _ _ _ _ _ _ _ _ _ := trivial
  fixity _ _ _ := trivial

theorem leftHandSide_bare (e : Expr) :
    leftHandSide e.bare = ((leftHandSide e).1.map Expr.bare, (leftHandSide e).2) := by
  cases e with
  | operation span operator left right => rfl
  | leaf | paren | record | arrow | pi | bind | letIn | app =>
    exact Prod.ext (Expr.spine_bare _) rfl

/-! ## Trees -/

section

variable {limit : Nat} {table : Table} {levels : Nat}

theorem value?_deeper_bare {α β : Type} {span span' : Span} {body : Nat → Report α}
    {body' : Nat → Report β} {c : α → β} (h : ∀ n, (body' n).value? = (body n).value?.map c) :
    (deeper limit levels span' body').value? = (deeper limit levels span body).value?.map c := by
  cases levels with
  | zero => rfl
  | succ n => exact h n

variable (limit) in
/-- The expression resolves to the same up to spans wherever it stands. -/
def PlacelessExpr (e : Concrete.Expr) : Prop :=
  ∀ table levels, (resolveExpr limit table.bare levels (exprRespan .bare e)).value? =
    (resolveExpr limit table levels e).value?.map Expr.bare

variable (limit) in
/-- The same of an atom. A typed parameter means something only before an arrow. -/
def PlacelessAtom (a : Concrete.Atom) : Prop :=
  (∀ table levels, (resolveAtom limit table.bare levels (atomRespan .bare a)).value? =
    (resolveAtom limit table levels a).value?.map Expr.bare) ∧
  ∀ p, a = .param p → PlacelessExpr limit p.type

variable (limit) in
/-- The same of a declaration. -/
def PlacelessDecl (d : Decl Concrete.Expr) : Prop :=
  ∀ table levels, (resolveDecl limit table.bare levels (declRespan .bare d)).value? =
    (resolveDecl limit table levels d).value?.map bareDecl

theorem value?_resolveAtoms_bare {atoms : List Concrete.Atom}
    (h : ∀ a ∈ atoms, PlacelessAtom limit a) :
    (resolveAtoms limit table.bare levels (Concrete.atomsRespan .bare atoms)).value? =
      (resolveAtoms limit table levels atoms).value?.map (List.map Piece.bare) := by
  induction atoms with
  | nil => rfl
  | cons a atoms ih =>
    have hatoms := ih fun b hb => h b (List.mem_cons_of_mem _ hb)
    have hpiece : (resolvePiece limit table.bare levels (atomRespan .bare a)).value? =
        (resolvePiece limit table levels a).value?.map Piece.bare := by
      rw [resolvePiece, resolvePiece, operator?_bare]
      cases operator? table a with
      | some op => rfl
      | none =>
        simp only [Option.map_none, Report.value?_map, (h a List.mem_cons_self).1, Option.map_map]
        rfl
    simp only [Concrete.atomsRespan, resolveAtoms_cons, Report.value?_bind, Report.value?_pure,
      hpiece, hatoms]
    cases (resolvePiece limit table levels a).value? with
    | none => rfl
    | some piece => cases (resolveAtoms limit table levels atoms).value? <;> rfl

theorem value?_resolveAssignments_bare {fields : List (Assignment Concrete.Expr)}
    (h : ∀ f ∈ fields, PlacelessExpr limit f.value) :
    (resolveAssignments limit table.bare levels (Concrete.assignmentsRespan .bare fields)).value? =
      (resolveAssignments limit table levels fields).value?.map bareAssignments := by
  induction fields with
  | nil => rfl
  | cons f fields ih =>
    obtain ⟨span, name, value⟩ := f
    have hvalue := h ⟨span, name, value⟩ List.mem_cons_self table levels
    have hfields := ih fun f hf => h f (List.mem_cons_of_mem _ hf)
    simp only [Concrete.assignmentsRespan, resolveAssignments, Report.value?_bind,
      Report.value?_pure, hvalue, hfields]
    cases (resolveExpr limit table levels value).value? with
    | none => rfl
    | some e => cases (resolveAssignments limit table levels fields).value? <;> rfl

theorem value?_resolveParam_bare {p : Param Concrete.Expr} (h : PlacelessExpr limit p.type) :
    (resolveParam limit table.bare levels (paramRespan .bare p)).value? =
      (resolveParam limit table levels p).value?.map bareParam := by
  obtain ⟨span, isImplicit, names, type⟩ := p
  have htype := h table levels
  simp only [paramRespan, resolveParam, Report.value?_bind, Report.value?_pure, htype]
  cases (resolveExpr limit table levels type).value? <;> rfl

theorem value?_resolveParams_bare {ps : List (Param Concrete.Expr)}
    (h : ∀ p ∈ ps, PlacelessExpr limit p.type) :
    (resolveParams limit table.bare levels (Concrete.paramsRespan .bare ps)).value? =
      (resolveParams limit table levels ps).value?.map bareParams := by
  induction ps with
  | nil => rfl
  | cons p ps ih =>
    have hps := ih fun p hp => h p (List.mem_cons_of_mem _ hp)
    simp only [Concrete.paramsRespan, resolveParams, Report.value?_bind, Report.value?_pure,
      value?_resolveParam_bare (h p List.mem_cons_self), hps]
    cases (resolveParam limit table levels p).value? with
    | none => rfl
    | some p => cases (resolveParams limit table levels ps).value? <;> rfl

theorem value?_resolveDomain_bare {atoms : List Concrete.Atom}
    (h : ∀ a ∈ atoms, PlacelessAtom limit a) :
    (resolveDomain limit table.bare levels (Concrete.atomsRespan .bare atoms)).value? =
      (resolveDomain limit table levels atoms).value?.map bareParams := by
  induction atoms with
  | nil => rfl
  | cons a atoms ih =>
    have hatoms := ih fun b hb => h b (List.mem_cons_of_mem _ hb)
    cases a with
    | param p =>
      simp only [Concrete.atomsRespan, atomRespan, resolveDomain, Report.value?_bind,
        Report.value?_pure, value?_resolveParam_bare ((h _ List.mem_cons_self).2 p rfl), hatoms]
      cases (resolveParam limit table levels p).value? with
      | none => rfl
      | some p => cases (resolveDomain limit table levels atoms).value? <;> rfl
    | leaf | paren | record | tail =>
      simp only [Concrete.atomsRespan, atomRespan, resolveDomain]
      exact hatoms

theorem value?_resolveBindings_bare {bs : List (Binding Concrete.Expr)}
    (h : ∀ p, .typed p ∈ bs → PlacelessExpr limit p.type) :
    (resolveBindings limit table.bare levels (Concrete.bindingsRespan .bare bs)).value? =
      (resolveBindings limit table levels bs).value?.map bareBindings := by
  induction bs with
  | nil => rfl
  | cons b bs ih =>
    have hbs := ih fun p hp => h p (List.mem_cons_of_mem _ hp)
    cases b with
    | name n =>
      simp only [Concrete.bindingsRespan, resolveBindings, Report.value?_bind, Report.value?_pure,
        hbs]
      cases (resolveBindings limit table levels bs).value? <;> rfl
    | typed p =>
      simp only [Concrete.bindingsRespan, resolveBindings, Report.value?_bind, Report.value?_pure,
        value?_resolveParam_bare (h p List.mem_cons_self), hbs]
      cases (resolveParam limit table levels p).value? with
      | none => rfl
      | some p => cases (resolveBindings limit table levels bs).value? <;> rfl

theorem value?_resolveOption_bare {o : Option Concrete.Expr}
    (h : ∀ e ∈ o, PlacelessExpr limit e) :
    (resolveOption limit table.bare levels (Concrete.optionRespan .bare o)).value? =
      (resolveOption limit table levels o).value?.map bareOption := by
  cases o with
  | none => rfl
  | some e =>
    simp only [Concrete.optionRespan, resolveOption, Report.value?_map, h e rfl table levels]
    cases (resolveExpr limit table levels e).value? <;> rfl

theorem value?_resolveSignatures_bare {gs : List (Signature Concrete.Expr)}
    (h : ∀ g ∈ gs, PlacelessExpr limit g.type) :
    (resolveSignatures limit table.bare levels (Concrete.signaturesRespan .bare gs)).value? =
      (resolveSignatures limit table levels gs).value?.map bareSignatures := by
  induction gs with
  | nil => rfl
  | cons g gs ih =>
    obtain ⟨span, names, type⟩ := g
    have htype := h ⟨span, names, type⟩ List.mem_cons_self table levels
    have hgs := ih fun g hg => h g (List.mem_cons_of_mem _ hg)
    simp only [Concrete.signaturesRespan, Concrete.signatureRespan, resolveSignatures,
      Report.value?_bind, Report.value?_pure, htype, hgs]
    cases (resolveExpr limit table levels type).value? with
    | none => rfl
    | some e => cases (resolveSignatures limit table levels gs).value? <;> rfl

theorem value?_resolveHeader_bare {header : Header Concrete.Expr}
    (hparams : ∀ p ∈ header.params, PlacelessExpr limit p.type)
    (htype : ∀ e ∈ header.type, PlacelessExpr limit e) :
    (resolveHeader limit table.bare levels (Concrete.headerRespan .bare header)).value? =
      (resolveHeader limit table levels header).value?.map bareHeader := by
  obtain ⟨name, params, type⟩ := header
  simp only [Concrete.headerRespan, resolveHeader, Report.value?_bind, Report.value?_pure,
    value?_resolveParams_bare hparams, value?_resolveOption_bare htype]
  cases (resolveParams limit table levels params).value? with
  | none => rfl
  | some ps => cases (resolveOption limit table levels type).value? <;> rfl

theorem value?_resolvePatterns_bare {es : List Concrete.Expr}
    (h : ∀ e ∈ es, PlacelessExpr limit e) :
    (resolvePatterns limit table.bare levels (Concrete.exprsRespan .bare es)).value? =
      (resolvePatterns limit table levels es).value?.map bareExprs := by
  induction es with
  | nil => rfl
  | cons e es ih =>
    have hes := ih fun e he => h e (List.mem_cons_of_mem _ he)
    simp only [Concrete.exprsRespan, resolvePatterns, Report.value?_bind, Report.value?_pure,
      Report.value?_raise, h e List.mem_cons_self table levels, hes]
    cases (resolveExpr limit table levels e).value? with
    | none => rfl
    | some r =>
      simp only [Option.map_some, Option.bind_some, ensurePattern_bare.expr r]
      cases (ensurePattern r).toOption with
      | none => rfl
      | some => cases (resolvePatterns limit table levels es).value? <;> rfl

theorem value?_resolveDecls_cons (d : Decl Concrete.Expr) (ds : List (Decl Concrete.Expr)) :
    (Report.noted (resolveDecls limit table levels (d :: ds))).value? =
      (resolveDecl limit table levels d).value?.bind fun r =>
        (Report.noted (resolveDecls limit table levels ds)).value?.map (r :: ·) := by
  rw [resolveDecls, Report.value?_noted, Report.value?_noted]
  simp only [isEmpty_append]
  obtain ⟨problems, result⟩ := resolveDecl limit table levels d
  cases problems <;> cases result <;>
    cases (resolveDecls limit table levels ds).2 <;> rfl

theorem value?_resolveDecls_bare {ds : List (Decl Concrete.Expr)}
    (h : ∀ d ∈ ds, PlacelessDecl limit d) :
    (Report.noted (resolveDecls limit table.bare levels (Concrete.declsRespan .bare ds))).value? =
      (Report.noted (resolveDecls limit table levels ds)).value?.map bareDecls := by
  induction ds with
  | nil => rfl
  | cons d ds ih =>
    have hds := ih fun d hd => h d (List.mem_cons_of_mem _ hd)
    rw [Concrete.declsRespan, value?_resolveDecls_cons, value?_resolveDecls_cons, hds,
      h d List.mem_cons_self table levels]
    cases (resolveDecl limit table levels d).value? with
    | none => rfl
    | some r => cases (Report.noted (resolveDecls limit table levels ds)).value? <;> rfl

theorem value?_enter_declsRespan (table : Table) (ds : List (Decl Concrete.Expr)) :
    (Report.noted (table.bare.enter (Concrete.declsRespan .bare ds))).value? =
      (Report.noted (table.enter ds)).value?.map Table.bare := by
  rw [Concrete.declsRespan_eq, value?_enter_bare]

theorem value?_resolveDecl_clause (span : Span) (patterns : List Concrete.Expr) (isOperator : Bool)
    (withPatterns : List Concrete.Expr) (withExpr rhs : Option Concrete.Expr)
    (locals : List (Decl Concrete.Expr)) :
    (resolveDecl limit table levels
        (.clause span patterns isOperator withPatterns withExpr rhs locals)).value? =
      (resolvePatterns limit table levels patterns).value?.bind fun es =>
      (resolvePatterns limit table levels withPatterns).value?.bind fun ws =>
      (Report.noted (table.enter locals)).value?.bind fun inside =>
      (Report.noted (resolveDecls limit inside levels locals)).value?.bind fun ds =>
      (resolveOption limit inside levels withExpr).value?.bind fun w =>
      (resolveOption limit inside levels rhs).value?.bind fun r =>
      some (.clause span ((es.map leftHandSide).flatMap (·.1)) ((es.map leftHandSide).any (·.2)) ws
        w r ds) := by
  simp only [resolveDecl, Report.value?_bind, Report.value?_defer_defer, Report.value?_pure]

/-- Resolution does not depend on places. -/
theorem placeless (limit : Nat) : Concrete.Cases (PlacelessExpr limit) (PlacelessAtom limit)
    (PlacelessDecl limit) where
  run span atoms hatoms table levels := by
    rw [exprRespan, resolveExpr, resolveExpr]
    apply value?_deeper_bare
    intro n
    simp only [Report.value?_bind, value?_resolveAtoms_bare hatoms]
    cases (resolveAtoms limit table n atoms).value? with
    | none => rfl
    | some pieces => exact value?_groupPieces_bare n span _ pieces
  arrow span domain codomain hdomain hcodomain table levels := by
    rw [exprRespan, resolveExpr, resolveExpr]
    apply value?_deeper_bare
    intro n
    have hany : (Concrete.atomsRespan .bare domain).any isParam = domain.any isParam := by
      simp [Function.comp_def, isParam_bare]
    have hfind : (Concrete.atomsRespan .bare domain).find? (!isParam ·) =
        (domain.find? (!isParam ·)).map (atomRespan .bare) := by
      have hcomp : (!isParam ·) ∘ atomRespan .bare = (!isParam ·) :=
        funext fun a => congrArg (!·) (isParam_bare a)
      rw [Concrete.atomsRespan_eq, List.find?_map, hcomp]
    rw [hany, hfind]
    split
    · cases domain.find? (!isParam ·) with
      | some culprit => rfl
      | none =>
        simp only [Option.map_none, Report.value?_bind, Report.value?_pure,
          value?_resolveDomain_bare hdomain, hcodomain table n]
        cases (resolveDomain limit table n domain).value? with
        | none => rfl
        | some ps => cases (resolveExpr limit table n codomain).value? <;> rfl
    · simp only [Report.value?_bind, Report.value?_pure, value?_resolveAtoms_bare hdomain,
        hcodomain table n]
      cases (resolveAtoms limit table n domain).value? with
      | none => rfl
      | some pieces =>
        simp only [Option.map_some, Option.bind_some,
          value?_groupPieces_bare n (runSpan span domain) _ pieces]
        cases (groupPieces n (runSpan span domain) pieces).value? with
        | none => rfl
        | some e => cases (resolveExpr limit table n codomain).value? <;> rfl
  bind span binder bindings body hbindings hbody table levels := by
    rw [exprRespan, resolveExpr, resolveExpr]
    apply value?_deeper_bare
    intro n
    simp only [Report.value?_bind, Report.value?_pure, value?_resolveBindings_bare hbindings,
      hbody table n]
    cases (resolveBindings limit table n bindings).value? with
    | none => rfl
    | some bs => cases (resolveExpr limit table n body).value? <;> rfl
  letIn span decls body hdecls hbody table levels := by
    rw [exprRespan, resolveExpr, resolveExpr]
    apply value?_deeper_bare
    intro n
    simp only [Report.value?_bind, Report.value?_pure, value?_enter_declsRespan]
    cases (Report.noted (table.enter decls)).value? with
    | none => rfl
    | some inside =>
      simp only [Option.map_some, Option.bind_some, value?_resolveDecls_bare hdecls, hbody inside n]
      cases (Report.noted (resolveDecls limit inside n decls)).value? with
      | none => rfl
      | some ds => cases (resolveExpr limit inside n body).value? <;> rfl
  leaf l := ⟨fun table levels => rfl, by simp⟩
  paren span e he := by
    refine ⟨fun table levels => ?_, by simp⟩
    simp only [atomRespan, resolveAtom, Report.value?_bind, Report.value?_pure, he table levels]
    cases (resolveExpr limit table levels e).value? <;> rfl
  param p hp := by
    refine ⟨fun table levels => rfl, ?_⟩
    rintro _ ⟨⟩
    exact hp
  record span builder fields hfields := by
    refine ⟨fun table levels => ?_, by simp⟩
    simp only [atomRespan, resolveAtom, Report.value?_bind, Report.value?_pure,
      value?_resolveAssignments_bare hfields]
    cases (resolveAssignments limit table levels fields).value? <;> rfl
  tail e he := ⟨he, by simp⟩
  dataType span header constructors hparams htype hconstructors table levels := by
    simp only [declRespan, resolveDecl, Report.value?_bind, Report.value?_pure,
      value?_resolveHeader_bare hparams htype, value?_resolveSignatures_bare hconstructors]
    cases (resolveHeader limit table levels header).value? with
    | none => rfl
    | some h => cases (resolveSignatures limit table levels constructors).value? <;> rfl
  emptyData span header hparams htype table levels := by
    simp only [declRespan, resolveDecl, Report.value?_bind, Report.value?_pure,
      value?_resolveHeader_bare hparams htype]
    cases (resolveHeader limit table levels header).value? <;> rfl
  recordType span header builder fields decls hparams htype hfields hdecls table levels := by
    simp only [declRespan, resolveDecl, Report.value?_bind, Report.value?_pure,
      value?_resolveHeader_bare hparams htype, value?_enter_declsRespan]
    cases (resolveHeader limit table levels header).value? with
    | none => rfl
    | some h =>
      cases (Report.noted (table.enter decls)).value? with
      | none => rfl
      | some inside =>
        simp only [Option.map_some, Option.bind_some, value?_resolveDecls_bare hdecls,
          value?_resolveSignatures_bare hfields]
        cases (Report.noted (resolveDecls limit inside levels decls)).value? with
        | none => rfl
        | some ds => cases (resolveSignatures limit inside levels fields).value? <;> rfl
  moduleBlock span name params decls hparams hdecls table levels := by
    simp only [declRespan, resolveDecl, Report.value?_bind, Report.value?_pure,
      value?_resolveParams_bare hparams, value?_enter_declsRespan]
    cases (resolveParams limit table levels params).value? with
    | none => rfl
    | some ps =>
      cases (Report.noted (table.enter decls)).value? with
      | none => rfl
      | some inside =>
        simp only [Option.map_some, Option.bind_some, value?_resolveDecls_bare hdecls]
        cases (Report.noted (resolveDecls limit inside levels decls)).value? <;> rfl
  importModule span kind name table levels := rfl
  ascription signature htype table levels := by
    obtain ⟨span, names, type⟩ := signature
    simp only [declRespan, Concrete.signatureRespan, resolveDecl, Report.value?_bind,
      Report.value?_pure, htype table levels]
    cases (resolveExpr limit table levels type).value? <;> rfl
  clause span patterns isOperator withPatterns withExpr rhs locals hpatterns hwith hexpr hrhs
      hlocals table levels := by
    rw [declRespan, value?_resolveDecl_clause, value?_resolveDecl_clause,
      value?_resolvePatterns_bare hpatterns, value?_resolvePatterns_bare hwith,
      value?_enter_declsRespan]
    cases (resolvePatterns limit table levels patterns).value? with
    | none => rfl
    | some es =>
      cases (resolvePatterns limit table levels withPatterns).value? with
      | none => rfl
      | some ws =>
        cases (Report.noted (table.enter locals)).value? with
        | none => rfl
        | some inside =>
          simp only [Option.map_some, Option.bind_some, value?_resolveDecls_bare hlocals,
            value?_resolveOption_bare hexpr, value?_resolveOption_bare hrhs]
          cases (Report.noted (resolveDecls limit inside levels locals)).value? with
          | none => rfl
          | some ds =>
            cases (resolveOption limit inside levels withExpr).value? with
            | none => rfl
            | some w =>
              cases (resolveOption limit inside levels rhs).value? with
              | none => rfl
              | some r =>
                have hsides : (es.map Expr.bare).map leftHandSide =
                    (es.map leftHandSide).map fun side => (side.1.map Expr.bare, side.2) := by
                  simp [leftHandSide_bare]
                simp only [Option.map_some, Option.bind_some, bareExprs_eq, hsides, bareDecl,
                  List.flatMap_map, List.any_map, List.map_flatMap]
                rfl
  fixity span fixity operators table levels := rfl

/-- Files that agree up to spans resolve to files that agree up to spans. -/
theorem resolveFile_eq_of_bare {ds ds' : List (Decl Concrete.Expr)} {rs : List (Decl Expr)}
    (hbare : ds'.map (declRespan .bare) = ds.map (declRespan .bare))
    (h : resolveFile limit ds = (rs, [])) :
    ∃ rs', resolveFile limit ds' = (rs', []) ∧ rs'.map bareDecl = rs.map bareDecl := by
  have hvalue : ∀ ds, (Report.noted (resolveFile limit ds)).value? =
      (Report.noted (Table.empty.enter ds)).value?.bind fun table =>
        (Report.noted (resolveDecls limit table limit ds)).value? := by
    intro ds
    simp only [resolveFile, Report.value?_noted, isEmpty_append]
    cases (Table.empty.enter ds).2 <;> rfl
  have hsame : ∀ ds, (Report.noted (resolveFile limit (ds.map (declRespan .bare)))).value? =
      (Report.noted (resolveFile limit ds)).value?.map (List.map bareDecl) := by
    intro ds
    rw [hvalue, hvalue, ← Concrete.declsRespan_eq]
    change Option.bind (Report.noted (Table.bare Table.empty |>.enter _)).value? _ = _
    rw [value?_enter_declsRespan]
    cases (Report.noted (Table.empty.enter ds)).value? with
    | none => rfl
    | some table =>
      simp only [Option.map_some, Option.bind_some,
        value?_resolveDecls_bare fun d _ => (placeless limit).decl d]
      cases (Report.noted (resolveDecls limit table limit ds)).value? with
      | none => rfl
      | some rs => simp
  have hgives : (Report.noted (resolveFile limit ds)).value? = some rs := by
    rw [Report.value?_eq_some_iff, Report.gives_noted_iff, h]
  have hmapped := hsame ds'
  rw [hbare, hsame ds, hgives, Option.map_some, eq_comm, Option.map_eq_some_iff] at hmapped
  obtain ⟨rs', hrs', hbares⟩ := hmapped
  rw [Report.value?_eq_some_iff, Report.gives_noted_iff] at hrs'
  exact ⟨rs', hrs', hbares⟩

end

end Fixity

end Offside
