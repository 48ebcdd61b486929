-- SUMMARY: What a tree that resolves without a problem has to do with what it resolves to.
import Mathlib.Data.List.Forall2
import Mathlib.Data.Option.Basic
import Offside.Proofs.Concrete.Written
import Offside.Proofs.Concrete.Respan
import Offside.Proofs.Fixity.Chain

/-! # Trees and what they resolve to

`Resolution` lists all the ways in which a well-formed tree resolves, one field
for each: a relation that satisfies it holds between every tree and what the
tree resolves to. The grouping of a run is said once, by `Grouped`: whatever the
fixities are, the members of the run come out in their order. How lists resolve
is said for every `Report.Outcome`, so it serves trees with problems too. -/

namespace Offside

/-! ## Parts -/

section

variable {ε ε' : Type} (E : ε → ε' → Prop)

/-- Parameters that agree but for their types, which `E` relates. -/
structure Param.Rel (p : Param ε) (q : Param ε') : Prop where
  span : q.span = p.span
  isImplicit : q.isImplicit = p.isImplicit
  names : q.names = p.names
  type : E p.type q.type

/-- Bindings that agree but for their types. -/
inductive Binding.Rel : Binding ε → Binding ε' → Prop
  | name (n : Name) : Rel (.name n) (.name n)
  | typed {p q} (param : p.Rel E q) : Rel (.typed p) (.typed q)

/-- Assignments that agree but for their values. -/
structure Assignment.Rel (a : Assignment ε) (b : Assignment ε') : Prop where
  span : b.span = a.span
  name : b.name = a.name
  value : E a.value b.value

/-- Signatures that agree but for their types. -/
structure Signature.Rel (g : Signature ε) (k : Signature ε') : Prop where
  span : k.span = g.span
  names : k.names = g.names
  type : E g.type k.type

/-- Headers that agree but for the types in them. -/
structure Header.Rel (h : Header ε) (k : Header ε') : Prop where
  name : k.name = h.name
  params : List.Forall₂ (Param.Rel E) h.params k.params
  type : Option.Rel E h.type k.type

end

namespace Fixity

/-! ## Runs -/

/-- How the members of a run are put together: operands side by side are
applied before any operator, and operators stand between what they operate on. -/
inductive Grouped : List Piece → Expr → Prop
  | operand (e : Expr) : Grouped [.operand e] e
  | apply {pieces : List Piece} {fn : Expr} (arg : Expr) (tight : ∀ op, .operator op ∉ pieces)
      (head : Grouped pieces fn) : Grouped (pieces ++ [.operand arg]) (fn.apply arg)
  | operate {before after : List Piece} {left right : Expr} (op : Operator)
      (first : Grouped before left) (second : Grouped after right) :
      Grouped (before ++ .operator op :: after) (.operate op.name left right)

namespace Chain

/-- The members of a run that the links of a chain are made of. -/
inductive LinksOf : List Piece → List (Operator × Expr) → Prop
  | nil : LinksOf [] []
  | cons {pieces after : List Piece} {e : Expr} {links : List (Operator × Expr)} (op : Operator)
      (operand : Grouped pieces e) (rest : LinksOf after links) :
      LinksOf (.operator op :: (pieces ++ after)) ((op, e) :: links)

theorem grouped_build {operand : Expr} {pieces : List Piece} {chain : Chain}
    (h : build operand pieces = .ok chain) {before : List Piece} (hbefore : Grouped before operand)
    (htight : ∀ op, .operator op ∉ before) :
    ∃ first rest, pieces = first ++ rest ∧ Grouped (before ++ first) chain.head ∧
      LinksOf rest chain.links := by
  fun_induction build operand pieces generalizing chain before with
  | case1 operand =>
    obtain rfl := Except.ok.inj h
    exact ⟨[], [], rfl, by rwa [List.append_nil], .nil⟩
  | case2 operand arg pieces ih =>
    obtain ⟨first, rest, rfl, hhead, hlinks⟩ := ih h (hbefore.apply arg htight) (by simpa using htight)
    exact ⟨.operand arg :: first, rest, rfl, by simpa using hhead, hlinks⟩
  | case3 | case4 => simp at h
  | case5 operand op next pieces ih =>
    cases hchain : build next pieces with
    | error d => simp [hchain, bind, Except.bind] at h
    | ok tail =>
      obtain rfl : (⟨operand, (op, tail.head) :: tail.links⟩ : Chain) = chain := by
        simpa [hchain, bind, Except.bind] using h
      obtain ⟨first, rest, rfl, hhead, hlinks⟩ := ih hchain (.operand next) (by simp)
      exact ⟨[], _, rfl, by rwa [List.append_nil], .cons op hhead hlinks⟩

theorem grouped_gathered {budget floor : Nat} {previous : Option Operator} {operand e : Expr}
    {links left : List (Operator × Expr)}
    (h : gathered budget floor previous operand links = .ok (e, left)) :
    ∀ before pieces, Grouped before operand → LinksOf pieces links →
      ∃ taken rest, pieces = taken ++ rest ∧ Grouped (before ++ taken) e ∧ LinksOf rest left := by
  refine gathered_induct (P := fun _ operand links e left => ∀ before pieces,
    Grouped before operand → LinksOf pieces links →
      ∃ taken rest, pieces = taken ++ rest ∧ Grouped (before ++ taken) e ∧ LinksOf rest left) ?_ ?_ h
  · intro floor operand links _ before pieces hbefore hlinks
    exact ⟨[], pieces, rfl, by rwa [List.append_nil], hlinks⟩
  · intro floor operand op next links right left e rest hright hrest before pieces hbefore hlinks
    cases hlinks with
    | @cons inner after _ _ _ hnext hafter =>
      obtain ⟨taken, others, rfl, hgroup, hothers⟩ := hright inner after hnext hafter
      obtain ⟨taken', others', rfl, hgroup', hothers'⟩ :=
        hrest (before ++ .operator op :: (inner ++ taken)) others (.operate op hbefore hgroup) hothers
      exact ⟨.operator op :: (inner ++ taken) ++ taken', others', by simp, by simpa using hgroup',
        hothers'⟩

end Chain

theorem grouped_groupPieces {budget : Nat} {span : Span} {pieces : List Piece} {e : Expr}
    (h : (groupPieces budget span pieces).Gives e) : Grouped pieces e := by
  rw [groupPieces_eq, Report.gives_raise_iff] at h
  cases hchain : Chain.ofPieces span pieces with
  | error d => simp [hchain, bind, Except.bind] at h
  | ok chain =>
    have hgroup : chain.group budget = .ok e := by simpa [hchain, bind, Except.bind] using h
    unfold Chain.ofPieces at hchain
    split at hchain
    · simp at hchain
    · simp at hchain
    · rename_i first others
      obtain ⟨taken, rest, rfl, hhead, hlinks⟩ :=
        Chain.grouped_build hchain (.operand first) (by simp)
      obtain ⟨taken', rest', rfl, hgrouped, hnone⟩ :=
        Chain.grouped_gathered (Chain.group_eq_ok hgroup) _ _ hhead hlinks
      cases hnone
      simpa using hgrouped

/-- A member of a run: an operand, or the name of an operator. -/
inductive PieceOf (A : Concrete.Atom → Expr → Prop) : Concrete.Atom → Piece → Prop
  | operand {a e} (atom : A a e) : PieceOf A a (.operand e)
  | operator (span : Span) (op : Operator) :
      PieceOf A (.leaf (.name ⟨span, [op.name]⟩)) (.operator op)

/-- An operator is a name of one part that the table has an entry for. -/
theorem exists_of_operator? {table : Table} {a : Concrete.Atom} {op : Operator}
    (h : operator? table a = some op) :
    ∃ span entry, a = .leaf (.name ⟨span, [op.name]⟩) ∧ table.lookup? op.name.text = some entry := by
  unfold operator? at h
  split at h
  · rename_i q
    obtain ⟨n, hn, h⟩ := Option.bind_eq_some_iff.1 h
    obtain ⟨entry, hentry, h⟩ := Option.bind_eq_some_iff.1 h
    obtain rfl := Option.some.inj h
    obtain ⟨span, segments⟩ := q
    unfold QualifiedName.simple? at hn
    split at hn
    · rename_i m hsegments
      obtain rfl := Option.some.inj hn
      obtain rfl : segments = [m] := hsegments
      exact ⟨span, entry, rfl, hentry⟩
    · simp at hn
  · simp at h

/-- A typed parameter before an arrow. -/
inductive DomainOf (E : Concrete.Expr → Expr → Prop) : Concrete.Atom → Param Expr → Prop
  | param {p q} (param : p.Rel E q) : DomainOf E (.param p) q

theorem rel_of_domain {E : Concrete.Expr → Expr → Prop} {atoms : List Concrete.Atom}
    {qs : List (Param Expr)} (h : List.Forall₂ (DomainOf E) atoms qs) :
    ∃ ps, atoms = ps.map Concrete.Atom.param ∧ List.Forall₂ (Param.Rel E) ps qs := by
  induction h with
  | nil => exact ⟨[], rfl, .nil⟩
  | cons hdomain _ ih =>
    cases hdomain with
    | param hrel =>
      obtain ⟨ps, rfl, hps⟩ := ih
      exact ⟨_ :: ps, rfl, .cons hrel hps⟩

open Concrete (Atom)

/-! ## Members

What a list resolves to is related to it member by member, by whatever relates
the members to what they resolve to. -/

section

variable {O : {α : Type} → Report α → α → Prop} {E : Concrete.Expr → Expr → Prop} {limit : Nat}
  {table : Table} {levels : Nat}

/-- Going deeper takes a level. -/
theorem exists_of_deeper {α : Type} {span : Span} {body : Nat → Report α} {a : α}
    (hO : Report.Outcome O) (h : O (deeper limit levels span body) a) :
    ∃ n, levels = n + 1 ∧ O (body n) a := by
  cases levels with
  | zero => exact (hO.not_fail h).elim
  | succ n => exact ⟨n, rfl, h⟩

theorem forall₂_of_outcome {α β : Type} {resolve : List α → Report (List β)} {P : α → Prop}
    {R : α → β → Prop} (hO : Report.Outcome O) (hnil : resolve [] = pure [])
    (hcons : ∀ a as bs, P a → O (resolve (a :: as)) bs →
      ∃ b bs', R a b ∧ O (resolve as) bs' ∧ bs = b :: bs')
    {as : List α} {bs : List β} (has : ∀ a ∈ as, P a) (h : O (resolve as) bs) :
    List.Forall₂ R as bs := by
  induction as generalizing bs with
  | nil =>
    rw [hnil] at h
    obtain rfl := hO.pure_iff.1 h
    exact .nil
  | cons a as ih =>
    obtain ⟨ha, has⟩ := List.forall_mem_cons.1 has
    obtain ⟨b, bs', hab, hothers, rfl⟩ := hcons a as bs ha h
    exact .cons hab (ih has hothers)

/-- An atom of a run is an operator if it has a fixity, else an operand. -/
theorem resolvePiece_cases {a : Atom} {piece : Piece} (hO : Report.Outcome O)
    (h : O (resolvePiece limit table levels a) piece) :
    (∃ op, operator? table a = some op ∧ piece = .operator op) ∨
      (operator? table a = none ∧ ∃ e, O (resolveAtom limit table levels a) e ∧ piece = .operand e) := by
  unfold resolvePiece at h
  split at h
  · rename_i op hop
    exact .inl ⟨op, hop, (hO.pure_iff.1 h).symm⟩
  · rename_i hop
    obtain ⟨e, he, heq⟩ := hO.map_iff.1 h
    exact .inr ⟨hop, e, he, heq.symm⟩

theorem forall₂_resolveAtoms {R : Atom → Piece → Prop} {atoms : List Atom} {pieces : List Piece}
    (hO : Report.Outcome O)
    (hatoms : ∀ a ∈ atoms, ∀ piece, O (resolvePiece limit table levels a) piece → R a piece)
    (h : O (resolveAtoms limit table levels atoms) pieces) : List.Forall₂ R atoms pieces := by
  refine forall₂_of_outcome hO (by rw [resolveAtoms]) ?_ hatoms h
  intro a atoms pieces ha h
  simp only [resolveAtoms_cons, hO.bind_iff, hO.pure_iff] at h
  obtain ⟨piece, hpiece, others, hothers, rfl⟩ := h
  exact ⟨piece, others, ha piece hpiece, hothers, rfl⟩

theorem forall₂_resolveAssignments {fields : List (Assignment Concrete.Expr)}
    {rs : List (Assignment Expr)} (hO : Report.Outcome O)
    (hfields : ∀ f ∈ fields, ∀ r, O (resolveExpr limit table levels f.value) r → E f.value r)
    (h : O (resolveAssignments limit table levels fields) rs) :
    List.Forall₂ (Assignment.Rel E) fields rs := by
  refine forall₂_of_outcome hO (by rw [resolveAssignments]) ?_ hfields h
  rintro ⟨span, name, value⟩ fields rs hvalue h
  simp only [resolveAssignments, hO.bind_iff, hO.pure_iff] at h
  obtain ⟨r, hr, others, hothers, rfl⟩ := h
  exact ⟨⟨span, name, r⟩, others, ⟨rfl, rfl, hvalue r hr⟩, hothers, rfl⟩

theorem rel_resolveParam {p : Param Concrete.Expr} {q : Param Expr} (hO : Report.Outcome O)
    (hp : ∀ r, O (resolveExpr limit table levels p.type) r → E p.type r)
    (h : O (resolveParam limit table levels p) q) : p.Rel E q := by
  obtain ⟨span, isImplicit, names, type⟩ := p
  simp only [resolveParam, hO.bind_iff, hO.pure_iff] at h
  obtain ⟨r, hr, rfl⟩ := h
  exact ⟨rfl, rfl, rfl, hp r hr⟩

theorem forall₂_resolveParams {ps : List (Param Concrete.Expr)} {qs : List (Param Expr)}
    (hO : Report.Outcome O)
    (hps : ∀ p ∈ ps, ∀ r, O (resolveExpr limit table levels p.type) r → E p.type r)
    (h : O (resolveParams limit table levels ps) qs) : List.Forall₂ (Param.Rel E) ps qs := by
  refine forall₂_of_outcome hO (by rw [resolveParams]) ?_ hps h
  intro p ps qs hp h
  simp only [resolveParams, hO.bind_iff, hO.pure_iff] at h
  obtain ⟨q, hq, others, hothers, rfl⟩ := h
  exact ⟨q, others, rel_resolveParam hO hp hq, hothers, rfl⟩

/-- The arrow is resolved no further if any atom is no typed parameter. -/
theorem forall₂_resolveDomain {atoms : List Atom} {qs : List (Param Expr)} (hO : Report.Outcome O)
    (hatoms : ∀ p, .param p ∈ atoms → ∀ r, O (resolveExpr limit table levels p.type) r → E p.type r)
    (hparams : atoms.find? (!isParam ·) = none)
    (h : O (resolveDomain limit table levels atoms) qs) : List.Forall₂ (DomainOf E) atoms qs := by
  have hmembers : ∀ a ∈ atoms, ∃ p, a = .param p ∧
      ∀ r, O (resolveExpr limit table levels p.type) r → E p.type r := by
    intro a ha
    cases a with
    | param p => exact ⟨p, rfl, hatoms p ha⟩
    | leaf | paren | record | tail => simpa [isParam] using List.find?_eq_none.1 hparams _ ha
  refine forall₂_of_outcome hO (by rw [resolveDomain]) ?_ hmembers h
  rintro _ atoms qs ⟨p, rfl, hp⟩ h
  simp only [resolveDomain, hO.bind_iff, hO.pure_iff] at h
  obtain ⟨q, hq, others, hothers, rfl⟩ := h
  exact ⟨q, others, .param (rel_resolveParam hO hp hq), hothers, rfl⟩

theorem forall₂_resolveBindings {bs : List (Binding Concrete.Expr)} {cs : List (Binding Expr)}
    (hO : Report.Outcome O)
    (hbs : ∀ p, .typed p ∈ bs → ∀ r, O (resolveExpr limit table levels p.type) r → E p.type r)
    (h : O (resolveBindings limit table levels bs) cs) : List.Forall₂ (Binding.Rel E) bs cs := by
  have hmembers : ∀ b ∈ bs, ∀ p, b = .typed p →
      ∀ r, O (resolveExpr limit table levels p.type) r → E p.type r :=
    fun b hb p hp => hbs p (hp ▸ hb)
  refine forall₂_of_outcome hO (by rw [resolveBindings]) ?_ hmembers h
  rintro (n | p) bs cs hp h
  · simp only [resolveBindings, hO.bind_iff, hO.pure_iff] at h
    obtain ⟨others, hothers, rfl⟩ := h
    exact ⟨_, others, .name n, hothers, rfl⟩
  · simp only [resolveBindings, hO.bind_iff, hO.pure_iff] at h
    obtain ⟨q, hq, others, hothers, rfl⟩ := h
    exact ⟨_, others, .typed (rel_resolveParam hO (hp p rfl) hq), hothers, rfl⟩

theorem rel_resolveOption {o : Option Concrete.Expr} {o' : Option Expr} (hO : Report.Outcome O)
    (ho : ∀ e ∈ o, ∀ r, O (resolveExpr limit table levels e) r → E e r)
    (h : O (resolveOption limit table levels o) o') : Option.Rel E o o' := by
  cases o with
  | none =>
    obtain rfl := hO.pure_iff.1 h
    exact .none
  | some e =>
    obtain ⟨r, hr, rfl⟩ := hO.map_iff.1 h
    exact .some (ho e rfl r hr)

theorem forall₂_resolveSignatures {gs : List (Signature Concrete.Expr)} {ks : List (Signature Expr)}
    (hO : Report.Outcome O)
    (hgs : ∀ g ∈ gs, ∀ r, O (resolveExpr limit table levels g.type) r → E g.type r)
    (h : O (resolveSignatures limit table levels gs) ks) :
    List.Forall₂ (Signature.Rel E) gs ks := by
  refine forall₂_of_outcome hO (by rw [resolveSignatures]) ?_ hgs h
  rintro ⟨span, names, type⟩ gs ks htype h
  simp only [resolveSignatures, hO.bind_iff, hO.pure_iff] at h
  obtain ⟨r, hr, others, hothers, rfl⟩ := h
  exact ⟨⟨span, names, r⟩, others, ⟨rfl, rfl, htype r hr⟩, hothers, rfl⟩

theorem rel_resolveHeader {header : Header Concrete.Expr} {header' : Header Expr}
    (hO : Report.Outcome O)
    (hparams : ∀ p ∈ header.params, ∀ r, O (resolveExpr limit table levels p.type) r → E p.type r)
    (htype : ∀ e ∈ header.type, ∀ r, O (resolveExpr limit table levels e) r → E e r)
    (h : O (resolveHeader limit table levels header) header') : header.Rel E header' := by
  obtain ⟨name, params, type⟩ := header
  simp only [resolveHeader, hO.bind_iff, hO.pure_iff] at h
  obtain ⟨ps, hps, o, ho, rfl⟩ := h
  exact ⟨rfl, forall₂_resolveParams hO hparams hps, rel_resolveOption hO htype ho⟩

/-- Patterns are checked one by one. -/
theorem forall₂_resolvePatterns {es : List Concrete.Expr} {rs : List Expr} (hO : Report.Outcome O)
    (hes : ∀ e ∈ es, ∀ r, O (resolveExpr limit table levels e) r → E e r)
    (h : O (resolvePatterns limit table levels es) rs) :
    List.Forall₂ (fun e r => E e r ∧ ensurePattern r = .ok ()) es rs := by
  refine forall₂_of_outcome hO (by rw [resolvePatterns]) ?_ hes h
  intro e es rs he h
  simp only [resolvePatterns, hO.bind_iff, hO.pure_iff, hO.raise_iff] at h
  obtain ⟨r, hr, _, hpattern, others, hothers, rfl⟩ := h
  exact ⟨r, others, ⟨he r hr, hpattern⟩, hothers, rfl⟩

end

/-! ## Trees -/

/-- All the ways in which well-formed trees resolve: `E` relates expressions and
`D` declarations to what they resolve to, and `A` does so for atoms that are
operands. The operators of a run may be any. -/
structure Resolution (limit : Nat) (E : Concrete.Expr → Expr → Prop) (A : Atom → Expr → Prop)
    (D : Decl Concrete.Expr → Decl Expr → Prop) : Prop where
  run : ∀ {levels span atoms pieces r}, Concrete.Expr.WellFormed limit levels (.run span atoms) →
    List.Forall₂ (PieceOf A) atoms pieces → Grouped pieces r → E (.run span atoms) r
  arrow : ∀ {levels span domain codomain pieces r t},
    Concrete.Expr.WellFormed limit levels (.arrow span domain codomain) →
    List.Forall₂ (PieceOf A) domain pieces → Grouped pieces r → E codomain t →
    E (.arrow span domain codomain) (.arrow span r t)
  pi : ∀ {levels span domain codomain params t},
    Concrete.Expr.WellFormed limit levels (.arrow span domain codomain) →
    List.Forall₂ (DomainOf E) domain params → E codomain t →
    E (.arrow span domain codomain) (.pi span params t)
  bind : ∀ {levels span binder bindings body bs r},
    Concrete.Expr.WellFormed limit levels (.bind span binder bindings body) →
    List.Forall₂ (Binding.Rel E) bindings bs → E body r →
    E (.bind span binder bindings body) (.bind span binder bs r)
  letIn : ∀ {span decls body rs r}, List.Forall₂ D decls rs → E body r →
    E (.letIn span decls body) (.letIn span rs r)
  leaf : ∀ {levels l}, Atom.WellFormed limit levels (.leaf l) → A (.leaf l) (.leaf l)
  paren : ∀ {span e r}, E e r → A (.paren span e) (.paren span r)
  record : ∀ {levels span builder fields rs},
    Atom.WellFormed limit levels (.record span builder fields) →
    List.Forall₂ (Assignment.Rel E) fields rs →
    A (.record span builder fields) (.record span builder rs)
  tail : ∀ {e r}, E e r → A (.tail e) r
  dataType : ∀ {levels span header constructors h gs},
    Concrete.Decl.WellFormed limit levels (.dataType span header constructors) →
    Header.Rel E header h → List.Forall₂ (Signature.Rel E) constructors gs →
    D (.dataType span header constructors) (.dataType span h gs)
  emptyData : ∀ {levels span header h},
    Concrete.Decl.WellFormed limit levels (.emptyData span header) → Header.Rel E header h →
    D (.emptyData span header) (.emptyData span h)
  recordType : ∀ {levels span header builder fields decls h gs rs},
    Concrete.Decl.WellFormed limit levels (.recordType span header builder fields decls) →
    Header.Rel E header h → List.Forall₂ (Signature.Rel E) fields gs → List.Forall₂ D decls rs →
    D (.recordType span header builder fields decls) (.recordType span h builder gs rs)
  moduleBlock : ∀ {levels span name params decls ps rs},
    Concrete.Decl.WellFormed limit levels (.moduleBlock span name params decls) →
    List.Forall₂ (Param.Rel E) params ps → List.Forall₂ D decls rs →
    D (.moduleBlock span name params decls) (.moduleBlock span name ps rs)
  importModule : ∀ {levels span kind name},
    Concrete.Decl.WellFormed limit levels (.importModule span kind name) →
    D (.importModule span kind name) (.importModule span kind name)
  ascription : ∀ {levels signature g},
    Concrete.Decl.WellFormed limit levels (.ascription signature) → Signature.Rel E signature g →
    D (.ascription signature) (.ascription g)
  clause : ∀ {span lhs withPatterns withExpr rhs locals r ws w r' rs}, E lhs r →
    ensurePattern r = .ok () → List.Forall₂ E withPatterns ws → Option.Rel E withExpr w → Option.Rel E rhs r' →
    List.Forall₂ D locals rs →
    D (.clause span [lhs] false withPatterns withExpr rhs locals)
      (.clause span (leftHandSide r).1 (leftHandSide r).2 ws w r' rs)
  fixity : ∀ {levels span fixity operators},
    Concrete.Decl.WellFormed limit levels (.fixity span fixity operators) →
    D (.fixity span fixity operators) (.fixity span fixity operators)

section

variable {limit maxNesting : Nat} {E : Concrete.Expr → Expr → Prop} {A : Atom → Expr → Prop}
  {D : Decl Concrete.Expr → Decl Expr → Prop} {table : Table} {levels : Nat}

variable (maxNesting E) in
/-- What the expression resolves to is related to it. -/
def ResolvesExpr (e : Concrete.Expr) : Prop :=
  ∀ table levels r, (resolveExpr maxNesting table levels e).Gives r → E e r

variable (maxNesting E A) in
/-- The same of an atom. A typed parameter means something only before an arrow. -/
def ResolvesAtom (a : Atom) : Prop :=
  (∀ table levels r, (resolveAtom maxNesting table levels a).Gives r → A a r) ∧
    ∀ p, a = .param p → ResolvesExpr maxNesting E p.type

variable (maxNesting D) in
/-- The same of a declaration. -/
def ResolvesDecl (d : Decl Concrete.Expr) : Prop :=
  ∀ table levels r, (resolveDecl maxNesting table levels d).Gives r → D d r

theorem pieceOf_resolvePiece {a : Atom} {piece : Piece} (ha : ResolvesAtom maxNesting E A a)
    (h : (resolvePiece maxNesting table levels a).Gives piece) : PieceOf A a piece := by
  obtain ⟨op, hop, rfl⟩ | ⟨-, e, he, rfl⟩ := resolvePiece_cases Report.outcome_gives h
  · obtain ⟨span, _, rfl, -⟩ := exists_of_operator? hop
    exact .operator span op
  · exact .operand (ha.1 table levels e he)

theorem forall₂_resolveDecls {ds : List (Decl Concrete.Expr)} {rs : List (Decl Expr)}
    (hds : ∀ d ∈ ds, ResolvesDecl maxNesting D d)
    (h : resolveDecls maxNesting table levels ds = (rs, [])) : List.Forall₂ D ds rs := by
  induction ds generalizing rs with
  | nil =>
    obtain rfl : [] = rs := (Prod.mk.inj h).1
    exact .nil
  | cons d ds ih =>
    rw [resolveDecls] at h
    simp only [Prod.mk.injEq, List.append_eq_nil_iff] at h
    obtain ⟨rfl, hfirst, hothers⟩ := h
    obtain ⟨r, hr, hgives⟩ := Report.settle_eq_iff.1 (Prod.ext rfl hfirst)
    rw [show (resolveDecl maxNesting table levels d).settle.1 = some r from hr]
    exact .cons (hds d List.mem_cons_self table levels r hgives)
      (ih (fun d hd => hds d (List.mem_cons_of_mem _ hd)) (Prod.ext rfl hothers))

namespace Resolution

/-- What well-formed trees resolve to is related to them. -/
theorem resolves (h : Resolution limit E A D) (maxNesting : Nat) : Concrete.Cases
    (fun e => ∀ n, e.WellFormed limit n → ResolvesExpr maxNesting E e)
    (fun a => ∀ n, a.WellFormed limit n → ResolvesAtom maxNesting E A a)
    (fun d => ∀ n, Concrete.Decl.WellFormed limit n d → ResolvesDecl maxNesting D d) where
  run := by
    intro span atoms ih n hwf table levels r hr
    rw [resolveExpr] at hr
    obtain ⟨k, -, hr⟩ := exists_of_deeper Report.outcome_gives hr
    obtain ⟨pieces, hpieces, hr⟩ := Report.gives_bind_iff.1 hr
    refine h.run hwf (forall₂_resolveAtoms Report.outcome_gives (fun a ha piece => ?_) hpieces)
      (grouped_groupPieces hr)
    cases hwf with
    | run _ each => exact pieceOf_resolvePiece (ih a ha _ (each a ha))
  arrow := by
    intro span domain codomain ihs ih n hwf table levels r hr
    rw [resolveExpr] at hr
    obtain ⟨k, -, hr⟩ := exists_of_deeper Report.outcome_gives hr
    obtain ⟨m, each, target⟩ : ∃ m, (∀ a ∈ domain, a.WellFormed limit m) ∧
        codomain.WellFormed limit m := by
      cases hwf with
      | arrow _ _ each target => exact ⟨_, each, target⟩
    have hdomain := fun a ha => ihs a ha m (each a ha)
    split at hr
    · split at hr
      · simp at hr
      · rename_i hparams
        simp only [Report.gives_bind_iff, Report.gives_pure_iff] at hr
        obtain ⟨ps, hps, e, he, rfl⟩ := hr
        exact h.pi hwf (forall₂_resolveDomain Report.outcome_gives
          (fun p hp => (hdomain _ hp).2 p rfl table k) hparams hps) (ih m target table k e he)
    · simp only [Report.gives_bind_iff, Report.gives_pure_iff] at hr
      obtain ⟨pieces, hpieces, e, he, e', he', rfl⟩ := hr
      exact h.arrow hwf (forall₂_resolveAtoms Report.outcome_gives
        (fun a ha _ => pieceOf_resolvePiece (hdomain a ha)) hpieces) (grouped_groupPieces he)
        (ih m target table k e' he')
  bind := by
    intro span binder bindings body ihs ih n hwf table levels r hr
    rw [resolveExpr] at hr
    obtain ⟨k, -, hr⟩ := exists_of_deeper Report.outcome_gives hr
    simp only [Report.gives_bind_iff, Report.gives_pure_iff] at hr
    obtain ⟨bs, hbs, e, he, rfl⟩ := hr
    obtain ⟨m, types, result⟩ : ∃ m, (∀ p, .typed p ∈ bindings → p.type.WellFormed limit m) ∧
        body.WellFormed limit m := by
      cases hwf with
      | bind _ _ types result => exact ⟨_, types, result⟩
    exact h.bind hwf (forall₂_resolveBindings Report.outcome_gives
      (fun p hp => ihs p hp m (types p hp) table k) hbs) (ih m result table k e he)
  letIn := by
    intro span decls body ihs ih n hwf table levels r hr
    rw [resolveExpr] at hr
    obtain ⟨k, -, hr⟩ := exists_of_deeper Report.outcome_gives hr
    simp only [Report.gives_bind_iff, Report.gives_pure_iff, Report.gives_noted_iff] at hr
    obtain ⟨table', -, ds, hds, e, he, rfl⟩ := hr
    cases hwf with
    | letIn each result =>
      exact h.letIn (forall₂_resolveDecls (fun d hd => ihs d hd _ (each d hd)) hds)
        (ih _ result table' k e he)
  leaf := by
    intro l n hwf
    refine ⟨fun table levels r hr => ?_, by simp⟩
    obtain rfl := Report.gives_pure_iff.1 hr
    exact h.leaf hwf
  paren := by
    intro span e ih n hwf
    refine ⟨fun table levels r hr => ?_, by simp⟩
    simp only [resolveAtom, Report.gives_bind_iff, Report.gives_pure_iff] at hr
    obtain ⟨e', he, rfl⟩ := hr
    cases hwf with
    | paren inner => exact h.paren (ih _ inner table levels e' he)
  param := by
    intro p ih n hwf
    cases hwf with
    | param _ type =>
      refine ⟨fun table levels r hr => ?_, ?_⟩
      · simp [resolveAtom] at hr
      · rintro _ ⟨⟩
        exact ih _ type
  record := by
    intro span builder fields ihs n hwf
    refine ⟨fun table levels r hr => ?_, by simp⟩
    simp only [resolveAtom, Report.gives_bind_iff, Report.gives_pure_iff] at hr
    obtain ⟨fs, hfs, rfl⟩ := hr
    refine h.record hwf (forall₂_resolveAssignments Report.outcome_gives (fun f hf => ?_) hfs)
    cases hwf with
    | record _ values => exact ihs f hf _ (values f hf) table levels
  tail := by
    intro e ih n hwf
    cases hwf with
    | tail _ inner => exact ⟨fun table levels r hr => h.tail (ih _ inner table levels r hr), by simp⟩
  dataType := by
    intro span header constructors ihps iht ihs n hwf table levels r hr
    simp only [resolveDecl, Report.gives_bind_iff, Report.gives_pure_iff] at hr
    obtain ⟨header', hheader, gs, hgs, rfl⟩ := hr
    obtain ⟨m, params, type, k, types⟩ : ∃ m, (∀ p ∈ header.params, p.type.WellFormed limit m) ∧
        (∀ e ∈ header.type, e.WellFormed limit m) ∧
        ∃ k, ∀ g ∈ constructors, g.type.WellFormed limit k := by
      cases hwf with
      | dataType _ params type _ types => exact ⟨_, params, type, _, types⟩
    exact h.dataType hwf (rel_resolveHeader Report.outcome_gives
      (fun p hp => ihps p hp m (params p hp) table levels)
      (fun e he => iht e he m (type e he) table levels) hheader)
      (forall₂_resolveSignatures Report.outcome_gives
        (fun g hg => ihs g hg k (types g hg) table levels) hgs)
  emptyData := by
    intro span header ihps iht n hwf table levels r hr
    simp only [resolveDecl, Report.gives_bind_iff, Report.gives_pure_iff] at hr
    obtain ⟨header', hheader, rfl⟩ := hr
    refine h.emptyData hwf ?_
    cases hwf with
    | emptyData _ params type =>
      exact rel_resolveHeader Report.outcome_gives
        (fun p hp => ihps p hp _ (params p hp) table levels)
        (fun e he => iht e he _ (type e he) table levels) hheader
  recordType := by
    intro span header builder fields decls ihps iht ihs ihds n hwf table levels r hr
    simp only [resolveDecl, Report.gives_bind_iff, Report.gives_pure_iff,
      Report.gives_noted_iff] at hr
    obtain ⟨header', hheader, table', -, ds, hds, gs, hgs, rfl⟩ := hr
    obtain ⟨m, params, type, k, types, each⟩ : ∃ m,
        (∀ p ∈ header.params, p.type.WellFormed limit m) ∧
        (∀ e ∈ header.type, e.WellFormed limit m) ∧
        ∃ k, (∀ g ∈ fields, g.type.WellFormed limit k) ∧
          ∀ d ∈ decls, Concrete.Decl.WellFormed limit k d := by
      cases hwf with
      | recordType _ params type _ types each => exact ⟨_, params, type, _, types, each⟩
    exact h.recordType hwf (rel_resolveHeader Report.outcome_gives
      (fun p hp => ihps p hp m (params p hp) table levels)
      (fun e he => iht e he m (type e he) table levels) hheader)
      (forall₂_resolveSignatures Report.outcome_gives
        (fun g hg => ihs g hg k (types g hg) table' levels) hgs)
      (forall₂_resolveDecls (fun d hd => ihds d hd k (each d hd)) hds)
  moduleBlock := by
    intro span name params decls ihps ihds n hwf table levels r hr
    simp only [resolveDecl, Report.gives_bind_iff, Report.gives_pure_iff,
      Report.gives_noted_iff] at hr
    obtain ⟨ps, hps, table', -, ds, hds, rfl⟩ := hr
    obtain ⟨m, types, k, each⟩ : ∃ m, (∀ p ∈ params, p.type.WellFormed limit m) ∧
        ∃ k, ∀ d ∈ decls, Concrete.Decl.WellFormed limit k d := by
      cases hwf with
      | moduleBlock _ _ types each => exact ⟨_, types, _, each⟩
    exact h.moduleBlock hwf (forall₂_resolveParams Report.outcome_gives
      (fun p hp => ihps p hp m (types p hp) table levels) hps)
      (forall₂_resolveDecls (fun d hd => ihds d hd k (each d hd)) hds)
  importModule := by
    intro span kind name n hwf table levels r hr
    obtain rfl := Report.gives_pure_iff.1 hr
    exact h.importModule hwf
  ascription := by
    intro signature ih n hwf table levels r hr
    obtain ⟨span, names, type⟩ := signature
    simp only [resolveDecl, Report.gives_bind_iff, Report.gives_pure_iff] at hr
    obtain ⟨e, he, rfl⟩ := hr
    refine h.ascription hwf ⟨rfl, rfl, ?_⟩
    cases hwf with
    | ascription _ hwf => exact ih _ hwf table levels e he
  clause := by
    intro span patterns isOperator withPatterns withExpr rhs locals ihs ihws ihw ihr ihds n hwf
      table levels r hr
    cases hwf with
    | @clause _ _ lhs _ _ _ _ _ left wellPatterns scrutinee right _ _ each =>
      simp only [resolveDecl, Report.gives_bind_iff, Report.gives_pure_iff, Report.gives_noted_iff,
        Report.gives_defer_iff, Report.gives_raise_iff] at hr
      obtain ⟨es, hes, ws, hws, table', -, ds, hds, w, hw, r, hr, w', rfl, r', rfl, rfl⟩ := hr
      have hpatterns := forall₂_resolvePatterns Report.outcome_gives
        (fun e he => ihs e he _ (List.mem_singleton.1 he ▸ left) table levels) hes
      obtain ⟨e, es', ⟨he, hpattern⟩, hnil, rfl⟩ := List.forall₂_cons_left_iff.1 hpatterns
      obtain rfl := List.forall₂_nil_left_iff.1 hnil
      have hwith := forall₂_resolvePatterns Report.outcome_gives
        (fun e he => ihws e he _ (wellPatterns e he) table levels) hws
      rw [List.map_singleton, List.flatMap_singleton, List.any_cons, List.any_nil, Bool.or_false]
      exact h.clause he hpattern (hwith.imp fun _ _ h => h.1)
        (rel_resolveOption Report.outcome_gives
          (fun e he => ihw e he _ (scrutinee e he) table' levels) hw)
        (rel_resolveOption Report.outcome_gives
          (fun e he => ihr e he _ (right e he) table' levels) hr)
        (forall₂_resolveDecls (fun d hd => ihds d hd _ (each d hd)) hds)
  fixity := by
    intro span fixity operators n hwf table levels r hr
    obtain rfl := Report.gives_pure_iff.1 hr
    exact h.fixity hwf

/-- What a file without problems resolves to is related to it. -/
theorem file (h : Resolution limit E A D) {n : Nat} {ds : List (Decl Concrete.Expr)}
    {rs : List (Decl Expr)} (hds : ∀ d ∈ ds, Concrete.Decl.WellFormed limit n d)
    (hr : resolveFile maxNesting ds = (rs, [])) : List.Forall₂ D ds rs := by
  simp only [resolveFile, Prod.mk.injEq, List.append_eq_nil_iff] at hr
  obtain ⟨rfl, -, hnone⟩ := hr
  refine forall₂_resolveDecls (fun d hd => ?_) (Prod.ext rfl hnone)
  exact (h.resolves maxNesting).decl d n (hds d hd)

/-- What an expression without problems resolves to is related to it, whatever
block it is in. -/
theorem inBlock (h : Resolution limit E A D) {n : Nat} {context : List (Decl Concrete.Expr)}
    {e : Concrete.Expr} {r : Expr} (he : e.WellFormed limit n)
    (hr : resolveIn maxNesting context e = (some r, [])) : E e r := by
  simp only [resolveIn, Prod.mk.injEq, List.append_eq_nil_iff] at hr
  obtain ⟨hsome, -, hnone⟩ := hr
  obtain ⟨r', hr', hgives⟩ := Report.settle_eq_iff.1 (Prod.ext hsome hnone)
  obtain rfl := Option.some.inj hr'
  exact (h.resolves maxNesting).expr e n he _ _ r hgives

end Resolution

end

end Fixity

end Offside
