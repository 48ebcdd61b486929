-- SUMMARY: Whether a name is an operator or an operand follows the blocks around it.
import Offside.Proofs.Fixity.Results
import Offside.Proofs.Parser.Formed
import Offside.Source

/-! # Operators and scopes

A name is an operator where a fixity declaration for it is in scope, and an
operand everywhere else. `Expr.Scoped` and `Decl.Scoped` say this of a tree by
the blocks around each place alone. Every parsed tree satisfies them, also one
from which declarations with problems were left out: `parse_scoped`. -/

namespace Offside

/-! ## Scopes of a tree -/

/-- The operators that the fixity declarations directly in a block name. -/
def declared {ε : Type} (decls : List (Decl ε)) : List String :=
  decls.flatMap fun
    | .fixity _ _ operators => operators.map Name.text
    | _ => []

theorem declared_append {ε : Type} (as bs : List (Decl ε)) :
    declared (as ++ bs) = declared as ++ declared bs := List.flatMap_append

theorem declared_cons {ε : Type} (d : Decl ε) (ds : List (Decl ε)) :
    declared (d :: ds) = declared [d] ++ declared ds := declared_append [d] ds

theorem declared_fixity {ε : Type} (span : Span) (fixity : Fixity) (operators : List Name) :
    declared [(.fixity span fixity operators : Decl ε)] = operators.map Name.text :=
  List.flatMap_singleton _ _

mutual

/-- In an expression under the fixities of `ops`, every operator is one of `ops`
and no name among the operands is. A `let` adds the fixities of its block. -/
inductive Expr.Scoped : (ops : List String) → Expr → Prop
  | leaf {ops l} (operand : ∀ q n, l = .name q → q.simple? = some n → n.text ∉ ops) :
      Expr.Scoped ops (.leaf l)
  | paren {ops span e} (inner : Expr.Scoped ops e) : Expr.Scoped ops (.paren span e)
  | record {ops span builder fields} (values : ∀ f ∈ fields, Expr.Scoped ops f.value) :
      Expr.Scoped ops (.record span builder fields)
  | arrow {ops span domain codomain} (source : Expr.Scoped ops domain)
      (target : Expr.Scoped ops codomain) : Expr.Scoped ops (.arrow span domain codomain)
  | pi {ops span params codomain} (types : ∀ p ∈ params, Expr.Scoped ops p.type)
      (target : Expr.Scoped ops codomain) : Expr.Scoped ops (.pi span params codomain)
  | bind {ops span binder bindings body} (types : ∀ p, .typed p ∈ bindings → Expr.Scoped ops p.type)
      (result : Expr.Scoped ops body) : Expr.Scoped ops (.bind span binder bindings body)
  | letIn {ops span decls body} (each : ∀ d ∈ decls, Decl.Scoped (declared decls ++ ops) d)
      (result : Expr.Scoped (declared decls ++ ops) body) : Expr.Scoped ops (.letIn span decls body)
  | app {ops span fn arg} (head : Expr.Scoped ops fn) (operand : Expr.Scoped ops arg) :
      Expr.Scoped ops (.app span fn arg)
  | operation {ops span operator left right} (known : operator.text ∈ ops)
      (first : Expr.Scoped ops left) (second : Expr.Scoped ops right) :
      Expr.Scoped ops (.operation span operator left right)

/-- The same of a declaration. The block of a record or module adds its
fixities, but not in the header. The block of a clause adds its own everywhere
but in the patterns. -/
inductive Decl.Scoped : (ops : List String) → Decl Expr → Prop
  | dataType {ops span header constructors} (params : ∀ p ∈ header.params, Expr.Scoped ops p.type)
      (type : ∀ e ∈ header.type, Expr.Scoped ops e)
      (types : ∀ g ∈ constructors, Expr.Scoped ops g.type) :
      Decl.Scoped ops (.dataType span header constructors)
  | emptyData {ops span header} (params : ∀ p ∈ header.params, Expr.Scoped ops p.type)
      (type : ∀ e ∈ header.type, Expr.Scoped ops e) : Decl.Scoped ops (.emptyData span header)
  | recordType {ops span header builder fields decls}
      (params : ∀ p ∈ header.params, Expr.Scoped ops p.type)
      (type : ∀ e ∈ header.type, Expr.Scoped ops e)
      (types : ∀ g ∈ fields, Expr.Scoped (declared decls ++ ops) g.type)
      (each : ∀ d ∈ decls, Decl.Scoped (declared decls ++ ops) d) :
      Decl.Scoped ops (.recordType span header builder fields decls)
  | moduleBlock {ops span name params decls} (types : ∀ p ∈ params, Expr.Scoped ops p.type)
      (each : ∀ d ∈ decls, Decl.Scoped (declared decls ++ ops) d) :
      Decl.Scoped ops (.moduleBlock span name params decls)
  | importModule {ops span kind name} : Decl.Scoped ops (.importModule span kind name)
  | ascription {ops signature} (type : Expr.Scoped ops signature.type) :
      Decl.Scoped ops (.ascription signature)
  | clause {ops span patterns withPatterns withExpr rhs locals}
      (left : ∀ e ∈ patterns, Expr.Scoped ops e) (others : ∀ e ∈ withPatterns, Expr.Scoped ops e)
      (scrutinee : ∀ e ∈ withExpr, Expr.Scoped (declared locals ++ ops) e)
      (right : ∀ e ∈ rhs, Expr.Scoped (declared locals ++ ops) e)
      (each : ∀ d ∈ locals, Decl.Scoped (declared locals ++ ops) d) :
      Decl.Scoped ops (.clause span patterns false withPatterns withExpr rhs locals)
  /-- The operator that a clause defines stands first among its patterns. -/
  | operatorClause {ops span operator first second withPatterns withExpr rhs locals}
      (known : operator.text ∈ ops) (before : Expr.Scoped ops first)
      (after : Expr.Scoped ops second) (others : ∀ e ∈ withPatterns, Expr.Scoped ops e)
      (scrutinee : ∀ e ∈ withExpr, Expr.Scoped (declared locals ++ ops) e)
      (right : ∀ e ∈ rhs, Expr.Scoped (declared locals ++ ops) e)
      (each : ∀ d ∈ locals, Decl.Scoped (declared locals ++ ops) d) :
      Decl.Scoped ops (.clause span [.leaf (.name (.simple operator)), first, second] true
        withPatterns withExpr rhs locals)
  | fixity {ops span fixity operators} : Decl.Scoped ops (.fixity span fixity operators)

end

/-- The file body is the outermost scope. -/
def File.Scoped (file : File) : Prop := ∀ d ∈ file.decls, d.Scoped (declared file.decls)

/-- The head of an application and its arguments are scoped with it. -/
theorem Expr.Scoped.spine {ops : List String} {e : Expr} (he : e.Scoped ops) :
    ∀ e' ∈ e.spine, e'.Scoped ops := by
  induction e using Expr.spine.induct with
  | case1 _ fn arg ih =>
    cases he with
    | app head operand =>
      intro e' he'
      rw [Expr.spine] at he'
      rcases List.mem_append.1 he' with he' | he'
      · exact ih head e' he'
      · rw [List.mem_singleton.1 he']
        exact operand
  | case2 e hother =>
    intro e' he'
    rw [Expr.spine] at he'
    · rw [List.mem_singleton.1 he']
      exact he
    · exact hother

namespace Fixity

/-! ## Tables -/

/-- The table has entries for the operators in `ops` and for no others. -/
def Table.Declares (table : Table) (ops : List String) : Prop :=
  ∀ name, (table.lookup? name).isSome ↔ name ∈ ops

theorem isSome_find?_declare {fixity : Fixity} {span : Span} {scope : Scope} {operator : Name}
    {name : String} : ((scope.declare fixity span operator).1.find? name).isSome ↔
      (scope.find? name).isSome ∨ name = operator.text := by
  unfold Scope.declare
  split
  · rename_i previous hprevious
    constructor
    · exact .inl
    · rintro (h | rfl)
      · exact h
      · simp [hprevious]
  · simp only [Scope.find?, List.find?_append, Option.isSome_or, Bool.or_eq_true]
    by_cases hname : operator.text = name
    · simp [hname]
    · simp [hname, Ne.symm hname]

theorem isSome_find?_declareAll {fixity : Fixity} {span : Span} {scope : Scope}
    {operators : List Name} {name : String} :
    ((scope.declareAll fixity span operators).1.find? name).isSome ↔
      (scope.find? name).isSome ∨ name ∈ operators.map Name.text := by
  induction operators generalizing scope with
  | nil => simp [Scope.declareAll]
  | cons operator operators ih =>
    rw [Scope.declareAll]
    simp only [ih, isSome_find?_declare, List.map_cons, List.mem_cons, or_assoc]

/-- A scope holds the operators declared in its block, wherever they stand. -/
theorem isSome_find?_collect {ε : Type} {scope : Scope} {decls : List (Decl ε)} {name : String} :
    ((scope.collect decls).1.find? name).isSome ↔
      (scope.find? name).isSome ∨ name ∈ declared decls := by
  fun_induction Scope.collect scope decls with
  | case1 scope => simp [declared]
  | case2 scope span fixity operators decls scope₁ ds₁ hscope scope₂ ds₂ hrest ih =>
    have hscope : scope₁ = (scope.declareAll fixity span operators).1 := by rw [hscope]
    rw [hrest] at ih
    rw [ih, hscope, isSome_find?_declareAll, or_assoc, declared_cons, declared_fixity,
      List.mem_append]
  | case3 scope decl decls hdecl ih =>
    have hnone : declared [decl] = [] := by
      cases decl with
      | fixity span fixity operators => exact (hdecl span fixity operators rfl).elim
      | _ => rfl
    rw [ih, declared_cons, hnone, List.nil_append]

theorem Table.Declares.enter {ε : Type} {table : Table} {ops : List String}
    (h : table.Declares ops) (decls : List (Decl ε)) :
    (table.enter decls).1.Declares (declared decls ++ ops) := by
  intro name
  have hempty : (Scope.find? [] name).isSome = false := rfl
  have hscope : ((Scope.collect [] decls).1.find? name).isSome ↔
      (Scope.find? [] name).isSome ∨ name ∈ declared decls := isSome_find?_collect
  rw [hempty] at hscope
  rw [List.mem_append, ← h name]
  simp only [Table.enter, Table.lookup?, List.findSome?_cons]
  cases hfind : (Scope.collect [] decls).1.find? name with
  | some entry =>
    have hmem : name ∈ declared decls := by simpa [hfind] using hscope
    simp [hmem]
  | none =>
    have hnot : name ∉ declared decls := by simpa [hfind] using hscope
    simp [hnot]

theorem Table.declares_empty : Table.empty.Declares [] := by
  intro name
  simp [Table.empty, Table.lookup?]

theorem mem_of_operator? {table : Table} {ops : List String} (h : table.Declares ops)
    {a : Concrete.Atom} {op : Operator} (hop : operator? table a = some op) :
    op.name.text ∈ ops := by
  obtain ⟨_, entry, -, hentry⟩ := exists_of_operator? hop
  exact (h op.name.text).1 (by rw [hentry]; rfl)

theorem not_mem_of_operator? {table : Table} {ops : List String} (h : table.Declares ops) {l : Leaf}
    (hop : operator? table (.leaf l) = none) :
    ∀ q n, l = .name q → q.simple? = some n → n.text ∉ ops := by
  rintro q n rfl hn hmem
  obtain ⟨entry, hentry⟩ := Option.isSome_iff_exists.1 ((h n.text).2 hmem)
  simp [operator?, hn, hentry] at hop

/-! ## Runs -/

/-- A member of a run in its scope. -/
def Piece.Scoped (ops : List String) : Piece → Prop
  | .operand e => e.Scoped ops
  | .operator op => op.name.text ∈ ops

theorem Grouped.scoped {ops : List String} {pieces : List Piece} {e : Expr}
    (h : Grouped pieces e) (hpieces : ∀ piece ∈ pieces, piece.Scoped ops) : e.Scoped ops := by
  induction h with
  | operand e => exact hpieces _ List.mem_cons_self
  | apply arg _ _ ih =>
    refine .app (ih fun piece hpiece => hpieces piece (List.mem_append_left _ hpiece)) ?_
    exact hpieces (.operand arg) (by simp)
  | operate op _ _ ih₁ ih₂ =>
    refine .operation (hpieces (.operator op) (by simp)) (ih₁ fun piece hpiece => ?_)
      (ih₂ fun piece hpiece => ?_)
    · exact hpieces piece (List.mem_append_left _ hpiece)
    · exact hpieces piece (List.mem_append_right _ (List.mem_cons_of_mem _ hpiece))

/-! ## Trees -/

section

variable {limit maxNesting : Nat} {table : Table} {levels : Nat} {ops : List String}

variable (maxNesting) in
/-- What the expression resolves to is scoped. -/
def ScopesExpr (e : Concrete.Expr) : Prop :=
  ∀ table ops levels r, table.Declares ops →
    (resolveExpr maxNesting table levels e).result = .ok r → r.Scoped ops

variable (maxNesting) in
/-- The same of an atom that is an operand, or a typed parameter. -/
def ScopesAtom (a : Concrete.Atom) : Prop :=
  (∀ table ops levels r, table.Declares ops → operator? table a = none →
    (resolveAtom maxNesting table levels a).result = .ok r → r.Scoped ops) ∧
    ∀ p, a = .param p → ScopesExpr maxNesting p.type

variable (maxNesting) in
/-- The same of a declaration. -/
def ScopesDecl (d : Decl Concrete.Expr) : Prop :=
  ∀ table ops levels r, table.Declares ops →
    (resolveDecl maxNesting table levels d).result = .ok r → r.Scoped ops

theorem ScopesExpr.scoped {e : Concrete.Expr} (h : ScopesExpr maxNesting e)
    (ht : table.Declares ops) (r : Expr) (hr : ResolvesTo maxNesting table levels e r) :
    r.Scoped ops := h table ops levels r ht hr

/-- What the atoms of a run are is scoped with them. -/
theorem scoped_members {atoms : List Concrete.Atom} {pieces : List Piece}
    (hatoms : ∀ a ∈ atoms, ScopesAtom maxNesting a) (ht : table.Declares ops)
    (h : List.Forall₂ (PieceResult maxNesting table levels) atoms pieces) :
    ∀ piece ∈ pieces, piece.Scoped ops := by
  refine forall_mem_of_forall₂ h (fun a _ piece hpiece ha => ?_) hatoms
  cases hpiece with
  | operator known => exact mem_of_operator? ht known
  | operand unknown inner => exact ha.1 table ops levels _ ht unknown inner

/-- Only a fixity declaration resolves to one. -/
theorem declared_resolveDecl (d : Decl Concrete.Expr) :
    declared (resolveDecl maxNesting table levels d).settle.1.toList = declared [d] := by
  cases hr : (resolveDecl maxNesting table levels d).settle.1 with
  | none =>
    cases d with
    | fixity span fixity operators => simp [resolveDecl, Report.settle] at hr
    | _ => rfl
  | some r => cases declResult_of_ok (Report.settle_fst_eq_some.1 hr) <;> rfl

/-- No fixity declaration is left out, so a block has the scope it had. -/
theorem declared_resolveDecls (ds : List (Decl Concrete.Expr)) :
    declared (resolveDecls maxNesting table levels ds).1 = declared ds := by
  induction ds with
  | nil => rfl
  | cons d ds ih =>
    rw [resolveDecls, declared_append, declared_resolveDecl, ih, ← declared_cons]

theorem scoped_resolveDecls {ds : List (Decl Concrete.Expr)}
    (hds : ∀ d ∈ ds, ScopesDecl maxNesting d) (ht : table.Declares ops) :
    ∀ r ∈ (resolveDecls maxNesting table levels ds).1, r.Scoped ops := by
  intro r hr
  obtain ⟨d, hd, hresult⟩ := exists_of_mem_resolveDecls hr
  exact hds d hd table ops levels r ht hresult

/-- A block is resolved under the fixities it declares. -/
theorem scoped_block {ds : List (Decl Concrete.Expr)} (hds : ∀ d ∈ ds, ScopesDecl maxNesting d)
    (ht : table.Declares ops) : ∀ r ∈ (resolveDecls maxNesting (table.enter ds).1 levels ds).1,
      r.Scoped (declared (resolveDecls maxNesting (table.enter ds).1 levels ds).1 ++ ops) := by
  rw [declared_resolveDecls]
  exact scoped_resolveDecls hds (ht.enter ds)

/-- The patterns of a clause under the fixities around it, and the rest under
those of its block. -/
theorem scoped_clause {span : Span} {r : Expr} {ws : List Expr} {w right : Option Expr}
    {rs : List (Decl Expr)} (hr : r.Scoped ops) (hws : ∀ e ∈ ws, e.Scoped ops)
    (hw : ∀ e ∈ w, e.Scoped (declared rs ++ ops))
    (hright : ∀ e ∈ right, e.Scoped (declared rs ++ ops))
    (hrs : ∀ d ∈ rs, d.Scoped (declared rs ++ ops)) :
    Decl.Scoped ops (.clause span (leftHandSide r).1 (leftHandSide r).2 ws w right rs) := by
  unfold leftHandSide
  split
  · cases hr with
    | operation known first second => exact .operatorClause known first second hws hw hright hrs
  · exact .clause hr.spine hws hw hright hrs

/-- What well-formed trees resolve to is scoped. -/
theorem scopes (limit maxNesting : Nat) : Concrete.Cases
    (fun e => ∀ n, e.WellFormed limit n → ScopesExpr maxNesting e)
    (fun a => ∀ n, a.WellFormed limit n → ScopesAtom maxNesting a)
    (fun d => ∀ n, Concrete.Decl.WellFormed limit n d → ScopesDecl maxNesting d) where
  run := by
    intro span atoms ih n hwf table ops levels r ht hr
    cases hwf with
    | run _ each =>
      cases exprResult_of_ok hr with
      | run members group =>
        have hatoms := fun a ha => ih a ha _ (each a ha)
        exact (grouped_of_result group).scoped (scoped_members hatoms ht members)
  arrow := by
    intro span domain codomain ihs ih n hwf table ops levels r ht hr
    cases hwf with
    | arrow _ _ each target =>
      have hdomain := fun a ha => ihs a ha _ (each a ha)
      cases exprResult_of_ok hr with
      | pi source result =>
        refine .pi (forall_params source fun p hp => ?_) ((ih _ target).scoped ht _ result)
        exact ((hdomain _ (List.mem_map_of_mem hp)).2 p rfl).scoped ht
      | arrow members group result =>
        exact .arrow ((grouped_of_result group).scoped (scoped_members hdomain ht members))
          ((ih _ target).scoped ht _ result)
  bind := by
    intro span binder bindings body ihs ih n hwf table ops levels r ht hr
    cases hwf with
    | bind _ _ types inner =>
      cases exprResult_of_ok hr with
      | bind bound result =>
        exact .bind (forall_bindings bound fun p hp => (ihs p hp _ (types p hp)).scoped ht)
          ((ih _ inner).scoped ht _ result)
  letIn := by
    intro span decls body ihs ih n hwf table ops levels r ht hr
    cases hwf with
    | letIn each inner =>
      cases exprResult_of_ok hr with
      | letIn result =>
        refine .letIn (scoped_block (fun d hd => ihs d hd _ (each d hd)) ht) ?_
        rw [declared_resolveDecls]
        exact (ih _ inner).scoped (ht.enter decls) _ result
  leaf := by
    intro l n hwf
    refine ⟨fun table ops levels r ht hop hr => ?_, by simp⟩
    cases atomResult_of_ok hr with
    | leaf => exact .leaf (not_mem_of_operator? ht hop)
  paren := by
    intro span e ih n hwf
    refine ⟨fun table ops levels r ht _ hr => ?_, by simp⟩
    cases hwf with
    | paren inner =>
      cases atomResult_of_ok hr with
      | paren result => exact .paren ((ih _ inner).scoped ht _ result)
  param := by
    intro p ih n hwf
    cases hwf with
    | param _ type =>
      refine ⟨fun table ops levels r _ _ hr => ?_, ?_⟩
      · cases atomResult_of_ok hr
      · rintro _ ⟨⟩
        exact ih _ type
  record := by
    intro span builder fields ihs n hwf
    refine ⟨fun table ops levels r ht _ hr => ?_, by simp⟩
    cases hwf with
    | record _ inner =>
      cases atomResult_of_ok hr with
      | record values =>
        exact .record (forall_assignments values fun f hf => (ihs f hf _ (inner f hf)).scoped ht)
  tail := by
    intro e ih n hwf
    refine ⟨fun table ops levels r ht _ hr => ?_, by simp⟩
    cases hwf with
    | tail _ inner =>
      cases atomResult_of_ok hr with
      | tail result => exact (ih _ inner).scoped ht _ result
  dataType := by
    intro span header constructors ihps iht ihs n hwf table ops levels r ht hr
    cases hwf with
    | dataType _ params type _ inner =>
      cases declResult_of_ok hr with
      | dataType head types =>
        exact .dataType (forall_params head.params fun p hp => (ihps p hp _ (params p hp)).scoped ht)
          (forall_option head.type fun e he => (iht e he _ (type e he)).scoped ht)
          (forall_signatures types fun g hg => (ihs g hg _ (inner g hg)).scoped ht)
  emptyData := by
    intro span header ihps iht n hwf table ops levels r ht hr
    cases hwf with
    | emptyData _ params type =>
      cases declResult_of_ok hr with
      | emptyData head =>
        exact .emptyData (forall_params head.params fun p hp => (ihps p hp _ (params p hp)).scoped ht)
          (forall_option head.type fun e he => (iht e he _ (type e he)).scoped ht)
  recordType := by
    intro span header builder fields decls ihps iht ihs ihds n hwf table ops levels r ht hr
    cases hwf with
    | recordType _ params type _ inner each =>
      cases declResult_of_ok hr with
      | recordType head types =>
        refine .recordType
          (forall_params head.params fun p hp => (ihps p hp _ (params p hp)).scoped ht)
          (forall_option head.type fun e he => (iht e he _ (type e he)).scoped ht) ?_
          (scoped_block (fun d hd => ihds d hd _ (each d hd)) ht)
        rw [declared_resolveDecls]
        exact forall_signatures types fun g hg => (ihs g hg _ (inner g hg)).scoped (ht.enter decls)
  moduleBlock := by
    intro span name params decls ihps ihds n hwf table ops levels r ht hr
    cases hwf with
    | moduleBlock _ _ types each =>
      cases declResult_of_ok hr with
      | moduleBlock head =>
        exact .moduleBlock (forall_params head fun p hp => (ihps p hp _ (types p hp)).scoped ht)
          (scoped_block (fun d hd => ihds d hd _ (each d hd)) ht)
  importModule := by
    intro span kind name n hwf table ops levels r ht hr
    cases declResult_of_ok hr with
    | importModule => exact .importModule
  ascription := by
    intro signature ih n hwf table ops levels r ht hr
    cases hwf with
    | ascription _ inner =>
      cases declResult_of_ok hr with
      | ascription result => exact .ascription ((ih _ inner).scoped ht _ result.type)
  clause := by
    intro span patterns isOperator withPatterns withExpr rhs locals ihs ihws ihw ihr ihds n hwf
      table ops levels r ht hr
    cases hwf with
    | clause _ wellLeft wellOthers wellScrutinee wellRight _ _ each =>
      cases declResult_of_ok hr with
      | clause left others scrutinee right =>
        -- A parsed clause has one expression on the left, taken apart when it is resolved.
        obtain ⟨e, es, ⟨he, -⟩, hnil, rfl⟩ := List.forall₂_cons_left_iff.1 left
        obtain rfl := List.forall₂_nil_left_iff.1 hnil
        rw [List.map_singleton, List.flatMap_singleton, List.any_cons, List.any_nil, Bool.or_false]
        have hothers := forall_mem_of_forall₂ others
          (fun e _ r hr (hscopes : ScopesExpr maxNesting e) => hscopes.scoped ht r hr.1)
          fun e he => ihws e he _ (wellOthers e he)
        refine scoped_clause ((ihs _ List.mem_cons_self _ wellLeft).scoped ht _ he) hothers ?_ ?_
          (scoped_block (fun d hd => ihds d hd _ (each d hd)) ht)
        · rw [declared_resolveDecls]
          exact forall_option scrutinee fun e he =>
            (ihw e he _ (wellScrutinee e he)).scoped (ht.enter locals)
        · rw [declared_resolveDecls]
          exact forall_option right fun e he => (ihr e he _ (wellRight e he)).scoped (ht.enter locals)
  fixity := by
    intro span fixity operators n hwf table ops levels r ht hr
    cases declResult_of_ok hr with
    | fixity => exact .fixity

/-- The body of a file is resolved under the fixities it declares, and under no
others. -/
theorem scoped_resolveFile {limit levels : Nat} {ds : List (Decl Concrete.Expr)}
    (hds : ∀ d ∈ ds, Concrete.Decl.WellFormed limit levels d) :
    ∀ d ∈ (resolveFile maxNesting ds).1, d.Scoped (declared (resolveFile maxNesting ds).1) := by
  intro d hd
  have hscopes : ∀ d ∈ ds, ScopesDecl maxNesting d :=
    fun d hd => (scopes limit maxNesting).decl d levels (hds d hd)
  have hscoped := scoped_block hscopes Table.declares_empty d hd
  rw [List.append_nil] at hscoped
  exact hscoped

end

end Fixity

namespace Source

/-- In every parsed tree the operators are the names with a fixity in scope, and
no such name is an operand. -/
theorem parse_scoped (options : Options) (source : String) :
    (parse options source).file.Scoped := by
  have hformed := Parser.file_formed options (.ofLexemes (tokens options source).lexemes)
  exact Fixity.scoped_resolveFile fun d hd => (hformed d hd).wellFormed

end Source

end Offside
