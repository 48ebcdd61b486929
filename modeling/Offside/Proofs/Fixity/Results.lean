-- SUMMARY: What a tree resolves to, form by form, whatever problems there are besides.
import Offside.Proofs.Fixity.Resolution

/-! # Results of resolution

`ExprResult`, `AtomResult` and `DeclResult` have one rule for each form that
resolution can give. A block is resolved to those of its declarations that
resolve, so these rules hold of trees with problems as well, where `Resolution`
is about trees without any. What is true of all results is shown by cases on the
rules, and `forall_params` and its like carry it over to the parts. -/

namespace Offside

/-! ## Parts -/

/-- What holds of each member of a list holds of each one that it is related to. -/
theorem forall_mem_of_forall₂ {α β : Type} {R : α → β → Prop} {P : α → Prop} {Q : β → Prop}
    {as : List α} {bs : List β} (h : List.Forall₂ R as bs) (hR : ∀ a ∈ as, ∀ b, R a b → P a → Q b)
    (has : ∀ a ∈ as, P a) : ∀ b ∈ bs, Q b := by
  induction h with
  | nil => simp
  | cons hab _ ih =>
    obtain ⟨hfirst, hothers⟩ := List.forall_mem_cons.1 has
    obtain ⟨hR, hRs⟩ := List.forall_mem_cons.1 hR
    exact List.forall_mem_cons.2 ⟨hR _ hab hfirst, ih hRs hothers⟩

theorem map_eq_of_forall₂ {α β γ : Type} {R : α → β → Prop} {f : α → γ} {g : β → γ} {as : List α}
    {bs : List β} (h : List.Forall₂ R as bs) (hR : ∀ a b, R a b → g b = f a) :
    bs.map g = as.map f := by
  induction h with
  | nil => rfl
  | cons hab _ ih => rw [List.map_cons, List.map_cons, hR _ _ hab, ih]

section

variable {ε ε' : Type} {E : ε → ε' → Prop} {Q : ε' → Prop}

theorem forall_params {ps : List (Param ε)} {qs : List (Param ε')}
    (h : List.Forall₂ (Param.Rel E) ps qs) (hps : ∀ p ∈ ps, ∀ r, E p.type r → Q r) :
    ∀ q ∈ qs, Q q.type :=
  forall_mem_of_forall₂ h (fun _ _ _ hq hp => hp _ hq.type) hps

theorem forall_bindings {bs : List (Binding ε)} {cs : List (Binding ε')}
    (h : List.Forall₂ (Binding.Rel E) bs cs)
    (hbs : ∀ p, .typed p ∈ bs → ∀ r, E p.type r → Q r) : ∀ q, .typed q ∈ cs → Q q.type := by
  have hcs : ∀ c ∈ cs, ∀ q, c = .typed q → Q q.type := by
    refine forall_mem_of_forall₂ h (fun b hb c hc (_ : True) q hq => ?_) fun _ _ => trivial
    cases hc with
    | name => cases hq
    | typed hrel =>
      obtain rfl := Binding.typed.inj hq
      exact hbs _ hb _ hrel.type
  exact fun q hq => hcs _ hq q rfl

theorem forall_assignments {fs : List (Assignment ε)} {gs : List (Assignment ε')}
    (h : List.Forall₂ (Assignment.Rel E) fs gs) (hfs : ∀ f ∈ fs, ∀ r, E f.value r → Q r) :
    ∀ g ∈ gs, Q g.value :=
  forall_mem_of_forall₂ h (fun _ _ _ hg hf => hf _ hg.value) hfs

theorem forall_signatures {gs : List (Signature ε)} {ks : List (Signature ε')}
    (h : List.Forall₂ (Signature.Rel E) gs ks) (hgs : ∀ g ∈ gs, ∀ r, E g.type r → Q r) :
    ∀ k ∈ ks, Q k.type :=
  forall_mem_of_forall₂ h (fun _ _ _ hk hg => hg _ hk.type) hgs

theorem forall_option {o : Option ε} {o' : Option ε'} (h : Option.Rel E o o')
    (ho : ∀ e ∈ o, ∀ r, E e r → Q r) : ∀ r ∈ o', Q r := by
  intro r hr
  cases h with
  | none => cases hr
  | some hrel =>
    obtain rfl := Option.some.inj hr
    exact ho _ rfl _ hrel

end

namespace Fixity

section

variable {limit : Nat} {table : Table} {levels : Nat}

/-- The expression resolves to `r`. -/
def ResolvesTo (limit : Nat) (table : Table) (levels : Nat) (e : Concrete.Expr) (r : Expr) : Prop :=
  (resolveExpr limit table levels e).result = .ok r

/-! ## Runs -/

/-- What an atom of a run is: an operator if it has a fixity, else an operand. -/
inductive PieceResult (limit : Nat) (table : Table) (levels : Nat) : Concrete.Atom → Piece → Prop
  | operator {a op} (known : operator? table a = some op) :
      PieceResult limit table levels a (.operator op)
  | operand {a e} (unknown : operator? table a = none)
      (inner : (resolveAtom limit table levels a).result = .ok e) :
      PieceResult limit table levels a (.operand e)

theorem pieceResults_of_ok {atoms : List Concrete.Atom} {pieces : List Piece}
    (h : (resolveAtoms limit table levels atoms).result = .ok pieces) :
    List.Forall₂ (PieceResult limit table levels) atoms pieces := by
  refine forall₂_resolveAtoms Report.outcome_result (fun a _ piece hpiece => ?_) h
  obtain ⟨op, hop, rfl⟩ | ⟨hop, e, he, rfl⟩ := resolvePiece_cases Report.outcome_result hpiece
  · exact .operator hop
  · exact .operand hop he

theorem grouped_of_result {budget : Nat} {span : Span} {pieces : List Piece} {e : Expr}
    (h : (groupPieces budget span pieces).result = .ok e) : Grouped pieces e :=
  grouped_groupPieces (Report.gives_raise_iff.2 h)

/-! ## Expressions -/

/-- What an expression resolves to. Each form takes a level. -/
inductive ExprResult (limit : Nat) (table : Table) : (levels : Nat) → Concrete.Expr → Expr → Prop
  | run {levels span atoms pieces r}
      (members : List.Forall₂ (PieceResult limit table levels) atoms pieces)
      (group : (groupPieces levels span pieces).result = .ok r) :
      ExprResult limit table (levels + 1) (.run span atoms) r
  | pi {levels span domain codomain params r}
      (source : List.Forall₂ (Param.Rel (ResolvesTo limit table levels)) domain params)
      (target : ResolvesTo limit table levels codomain r) :
      ExprResult limit table (levels + 1) (.arrow span (domain.map .param) codomain)
        (.pi span params r)
  | arrow {levels span domain codomain pieces e r}
      (members : List.Forall₂ (PieceResult limit table levels) domain pieces)
      (group : (groupPieces levels (runSpan span domain) pieces).result = .ok e)
      (target : ResolvesTo limit table levels codomain r) :
      ExprResult limit table (levels + 1) (.arrow span domain codomain) (.arrow span e r)
  | bind {levels span binder bindings body bs r}
      (bound : List.Forall₂ (Binding.Rel (ResolvesTo limit table levels)) bindings bs)
      (inner : ResolvesTo limit table levels body r) :
      ExprResult limit table (levels + 1) (.bind span binder bindings body) (.bind span binder bs r)
  | letIn {levels span decls body r}
      (inner : ResolvesTo limit (table.enter decls).1 levels body r) :
      ExprResult limit table (levels + 1) (.letIn span decls body)
        (.letIn span (resolveDecls limit (table.enter decls).1 levels decls).1 r)

theorem exprResult_of_ok {e : Concrete.Expr} {r : Expr} (h : ResolvesTo limit table levels e r) :
    ExprResult limit table levels e r := by
  cases e with
  | run span atoms =>
    rw [ResolvesTo, resolveExpr] at h
    obtain ⟨n, rfl, hr⟩ := exists_of_deeper Report.outcome_result h
    obtain ⟨pieces, hpieces, hgroup⟩ := Report.result_bind_iff.1 hr
    exact .run (pieceResults_of_ok hpieces) hgroup
  | arrow span domain codomain =>
    rw [ResolvesTo, resolveExpr] at h
    obtain ⟨n, rfl, hr⟩ := exists_of_deeper Report.outcome_result h
    split at hr
    · split at hr
      · simp at hr
      · rename_i hnone
        simp only [Report.result_bind_iff, Report.result_pure, Except.ok.injEq] at hr
        obtain ⟨params, hparams, e, he, rfl⟩ := hr
        have hdomain : List.Forall₂ (DomainOf (ResolvesTo limit table n)) domain params :=
          forall₂_resolveDomain Report.outcome_result (fun _ _ _ h => h) hnone hparams
        obtain ⟨ps, rfl, hps⟩ := rel_of_domain hdomain
        exact .pi hps he
    · simp only [Report.result_bind_iff, Report.result_pure, Except.ok.injEq] at hr
      obtain ⟨pieces, hpieces, e, hgroup, e', he', rfl⟩ := hr
      exact .arrow (pieceResults_of_ok hpieces) hgroup he'
  | bind span binder bindings body =>
    rw [ResolvesTo, resolveExpr] at h
    obtain ⟨n, rfl, hr⟩ := exists_of_deeper Report.outcome_result h
    simp only [Report.result_bind_iff, Report.result_pure, Except.ok.injEq] at hr
    obtain ⟨bs, hbs, e, he, rfl⟩ := hr
    exact .bind (forall₂_resolveBindings Report.outcome_result (fun _ _ _ h => h) hbs) he
  | letIn span decls body =>
    rw [ResolvesTo, resolveExpr] at h
    obtain ⟨n, rfl, hr⟩ := exists_of_deeper Report.outcome_result h
    simp only [Report.result_bind_iff, Report.result_pure, Report.result_noted,
      Except.ok.injEq] at hr
    obtain ⟨_, rfl, _, rfl, e, he, rfl⟩ := hr
    exact .letIn he

/-- What an atom resolves to that is an operand. A typed parameter is none. -/
inductive AtomResult (limit : Nat) (table : Table) (levels : Nat) : Concrete.Atom → Expr → Prop
  | leaf {l} : AtomResult limit table levels (.leaf l) (.leaf l)
  | paren {span e r} (inner : ResolvesTo limit table levels e r) :
      AtomResult limit table levels (.paren span e) (.paren span r)
  | record {span builder fields rs}
      (values : List.Forall₂ (Assignment.Rel (ResolvesTo limit table levels)) fields rs) :
      AtomResult limit table levels (.record span builder fields) (.record span builder rs)
  | tail {e r} (inner : ResolvesTo limit table levels e r) :
      AtomResult limit table levels (.tail e) r

theorem atomResult_of_ok {a : Concrete.Atom} {r : Expr}
    (h : (resolveAtom limit table levels a).result = .ok r) : AtomResult limit table levels a r := by
  cases a with
  | leaf l =>
    obtain rfl : .leaf l = r := by simpa [resolveAtom] using h
    exact .leaf
  | paren span e =>
    simp only [resolveAtom, Report.result_bind_iff, Report.result_pure, Except.ok.injEq] at h
    obtain ⟨r, hr, rfl⟩ := h
    exact .paren hr
  | param p => simp [resolveAtom] at h
  | record span builder fields =>
    simp only [resolveAtom, Report.result_bind_iff, Report.result_pure, Except.ok.injEq] at h
    obtain ⟨rs, hrs, rfl⟩ := h
    exact .record (forall₂_resolveAssignments Report.outcome_result (fun _ _ _ h => h) hrs)
  | tail e =>
    rw [resolveAtom] at h
    exact .tail h

/-! ## Declarations -/

/-- What a declaration resolves to. The block of a record or module is a scope
for what stands in it, that of a clause also for its right-hand side. -/
inductive DeclResult (limit : Nat) (table : Table) (levels : Nat) :
    Decl Concrete.Expr → Decl Expr → Prop
  | dataType {span header header' constructors signatures}
      (head : Header.Rel (ResolvesTo limit table levels) header header')
      (types : List.Forall₂ (Signature.Rel (ResolvesTo limit table levels)) constructors signatures) :
      DeclResult limit table levels (.dataType span header constructors)
        (.dataType span header' signatures)
  | emptyData {span header header'}
      (head : Header.Rel (ResolvesTo limit table levels) header header') :
      DeclResult limit table levels (.emptyData span header) (.emptyData span header')
  | recordType {span header header' builder fields signatures decls}
      (head : Header.Rel (ResolvesTo limit table levels) header header')
      (types : List.Forall₂ (Signature.Rel (ResolvesTo limit (table.enter decls).1 levels))
        fields signatures) :
      DeclResult limit table levels (.recordType span header builder fields decls)
        (.recordType span header' builder signatures
          (resolveDecls limit (table.enter decls).1 levels decls).1)
  | moduleBlock {span name params params' decls}
      (head : List.Forall₂ (Param.Rel (ResolvesTo limit table levels)) params params') :
      DeclResult limit table levels (.moduleBlock span name params decls)
        (.moduleBlock span name params' (resolveDecls limit (table.enter decls).1 levels decls).1)
  | importModule {span kind name} :
      DeclResult limit table levels (.importModule span kind name) (.importModule span kind name)
  | ascription {signature signature'}
      (type : Signature.Rel (ResolvesTo limit table levels) signature signature') :
      DeclResult limit table levels (.ascription signature) (.ascription signature')
  | clause {span patterns isOperator withPatterns withExpr rhs locals es ws w r}
      (left : List.Forall₂ (fun e r => ResolvesTo limit table levels e r ∧ ensurePattern r = .ok ())
        patterns es)
      (others : List.Forall₂
        (fun e r => ResolvesTo limit table levels e r ∧ ensurePattern r = .ok ()) withPatterns ws)
      (scrutinee : Option.Rel (ResolvesTo limit (table.enter locals).1 levels) withExpr w)
      (right : Option.Rel (ResolvesTo limit (table.enter locals).1 levels) rhs r) :
      DeclResult limit table levels
        (.clause span patterns isOperator withPatterns withExpr rhs locals)
        (.clause span ((es.map leftHandSide).flatMap (·.1)) ((es.map leftHandSide).any (·.2)) ws w r
          (resolveDecls limit (table.enter locals).1 levels locals).1)
  | fixity {span fixity operators} :
      DeclResult limit table levels (.fixity span fixity operators) (.fixity span fixity operators)

theorem resolvesTo_header {header : Header Concrete.Expr} {header' : Header Expr}
    (h : (resolveHeader limit table levels header).result = .ok header') :
    header.Rel (ResolvesTo limit table levels) header' :=
  rel_resolveHeader Report.outcome_result (fun _ _ _ h => h) (fun _ _ _ h => h) h

theorem resolvesTo_signatures {gs : List (Signature Concrete.Expr)} {ks : List (Signature Expr)}
    (h : (resolveSignatures limit table levels gs).result = .ok ks) :
    List.Forall₂ (Signature.Rel (ResolvesTo limit table levels)) gs ks :=
  forall₂_resolveSignatures Report.outcome_result (fun _ _ _ h => h) h

theorem resolvesTo_patterns {es : List Concrete.Expr} {rs : List Expr}
    (h : (resolvePatterns limit table levels es).result = .ok rs) :
    List.Forall₂ (fun e r => ResolvesTo limit table levels e r ∧ ensurePattern r = .ok ()) es rs :=
  forall₂_resolvePatterns Report.outcome_result (fun _ _ _ h => h) h

theorem resolvesTo_option {o : Option Concrete.Expr} {o' : Option Expr}
    (h : (resolveOption limit table levels o).result = .ok o') :
    Option.Rel (ResolvesTo limit table levels) o o' :=
  rel_resolveOption Report.outcome_result (fun _ _ _ h => h) h

theorem declResult_of_ok {d : Decl Concrete.Expr} {r : Decl Expr}
    (h : (resolveDecl limit table levels d).result = .ok r) : DeclResult limit table levels d r := by
  cases d with
  | dataType span header constructors =>
    simp only [resolveDecl, Report.result_bind_iff, Report.result_pure, Except.ok.injEq] at h
    obtain ⟨header', hheader, gs, hgs, rfl⟩ := h
    exact .dataType (resolvesTo_header hheader) (resolvesTo_signatures hgs)
  | emptyData span header =>
    simp only [resolveDecl, Report.result_bind_iff, Report.result_pure, Except.ok.injEq] at h
    obtain ⟨header', hheader, rfl⟩ := h
    exact .emptyData (resolvesTo_header hheader)
  | recordType span header builder fields decls =>
    simp only [resolveDecl, Report.result_bind_iff, Report.result_pure, Report.result_noted,
      Except.ok.injEq] at h
    obtain ⟨header', hheader, _, rfl, _, rfl, gs, hgs, rfl⟩ := h
    exact .recordType (resolvesTo_header hheader) (resolvesTo_signatures hgs)
  | moduleBlock span name params decls =>
    simp only [resolveDecl, Report.result_bind_iff, Report.result_pure, Report.result_noted,
      Except.ok.injEq] at h
    obtain ⟨ps, hps, _, rfl, _, rfl, rfl⟩ := h
    exact .moduleBlock (forall₂_resolveParams Report.outcome_result (fun _ _ _ h => h) hps)
  | importModule span kind name =>
    obtain rfl : .importModule span kind name = r := by simpa [resolveDecl] using h
    exact .importModule
  | ascription signature =>
    obtain ⟨span, names, type⟩ := signature
    simp only [resolveDecl, Report.result_bind_iff, Report.result_pure, Except.ok.injEq] at h
    obtain ⟨e, he, rfl⟩ := h
    exact .ascription ⟨rfl, rfl, he⟩
  | clause span patterns isOperator withPatterns withExpr rhs locals =>
    simp only [resolveDecl, Report.result_bind_iff, Report.result_pure, Report.result_noted,
      Report.result_defer, Report.result_raise, Except.ok.injEq] at h
    obtain ⟨es, hes, ws, hws, _, rfl, _, rfl, _, rfl, _, rfl, w, hw, r, hr, rfl⟩ := h
    exact .clause (resolvesTo_patterns hes) (resolvesTo_patterns hws) (resolvesTo_option hw)
      (resolvesTo_option hr)
  | fixity span fixity operators =>
    obtain rfl : .fixity span fixity operators = r := by simpa [resolveDecl] using h
    exact .fixity

/-! ## Blocks -/

/-- A declaration of a resolved block was resolved from one of the block. -/
theorem exists_of_mem_resolveDecls {ds : List (Decl Concrete.Expr)} {r : Decl Expr}
    (h : r ∈ (resolveDecls limit table levels ds).1) :
    ∃ d ∈ ds, (resolveDecl limit table levels d).result = .ok r := by
  induction ds with
  | nil => simp [resolveDecls] at h
  | cons d ds ih =>
    rw [resolveDecls] at h
    rcases List.mem_append.1 h with hfirst | hothers
    · exact ⟨d, List.mem_cons_self, Report.settle_fst_eq_some.1 (Option.mem_toList.1 hfirst)⟩
    · obtain ⟨d', hd', hr⟩ := ih hothers
      exact ⟨d', List.mem_cons_of_mem _ hd', hr⟩

end

end Fixity

end Offside
