-- SUMMARY: The problems that resolution of operators reports: what they are and where they stand.
import Offside.Proofs.Fixity.Results
import Offside.Proofs.Lexeme.Ordered

/-! # Problems of resolution

Every problem of resolution belongs to a node of the tree: a run and its
operators, an atom, a pattern, an operator that is declared again, or an
expression that is too deep. `Faults` says what has to be known of each node to
know `P` of all problems, and `Faults.file` that it is enough. The first use is
that only the parser misses tokens: `isOwn_resolveFile`. -/

namespace Offside

namespace Problem

/-- Whether something else was expected in place of a token. -/
def isUnexpected : Problem → Bool
  | .unexpected .. => true
  | _ => false

/-- Whether the problem is one of grouping operators, or one that is seen only
when operators are grouped. -/
def isGrouping : Problem → Bool
  | .fixityRedeclared .. | .mixedAssociativity .. | .ambiguousChain .. | .missingOperand
  | .missingLeftOperand _ | .missingRightOperand _ | .chainTooDeep _ | .notAPattern _
  | .mixedDomain | .strayParam => true
  | _ => false

end Problem

namespace Fixity

/-- `P` holds of every problem of grouping at `span`. -/
def Allows (P : Diagnostic → Prop) (span : Span) : Prop :=
  ∀ problem : Problem, problem.isGrouping = true → P (problem.at span)

variable {P : Diagnostic → Prop}

/-! ## Scopes -/

theorem allows_declareAll {fixity : Fixity} {span : Span} {operators : List Name} {scope : Scope}
    (h : ∀ n ∈ operators, Allows P n.span) :
    ∀ d ∈ (scope.declareAll fixity span operators).2, P d := by
  induction operators generalizing scope with
  | nil => simp [Scope.declareAll]
  | cons operator operators ih =>
    obtain ⟨hoperator, hoperators⟩ := List.forall_mem_cons.1 h
    have hfirst : ∀ d ∈ (scope.declare fixity span operator).2, P d := by
      intro d hd
      simp only [Scope.declare] at hd
      split at hd
      · exact List.mem_singleton.1 hd ▸ hoperator _ rfl
      · simp at hd
    exact List.forall_mem_append.2 ⟨hfirst, ih hoperators⟩

/-- Entering a block has no problems but at operators that the block declares. -/
theorem allows_enter {table : Table} {decls : List (Decl Concrete.Expr)}
    (h : ∀ span fixity operators, .fixity span fixity operators ∈ decls →
      ∀ n ∈ operators, Allows P n.span) : ∀ d ∈ (table.enter decls).2, P d := by
  have hcollect : ∀ scope : Scope, ∀ d ∈ (scope.collect decls).2, P d := by
    induction decls with
    | nil =>
      intro scope d hd
      cases hd
    | cons decl decls ih =>
      have hothers := ih fun span fixity operators hmem =>
        h span fixity operators (List.mem_cons_of_mem _ hmem)
      intro scope
      cases decl with
      | fixity span fixity operators =>
        have hfirst : ∀ d ∈ (scope.declareAll fixity span operators).2, P d :=
          allows_declareAll (h span fixity operators List.mem_cons_self)
        exact List.forall_mem_append.2 ⟨hfirst, hothers _⟩
      | _ => exact hothers scope
  exact hcollect []

/-! ## Chains -/

/-- What stops a sequence stops one of its parts. -/
theorem error_bind {α β : Type} {x : Except Diagnostic α} {f : α → Except Diagnostic β}
    (hx : ∀ d, x = .error d → P d) (hf : ∀ a, x = .ok a → ∀ d, f a = .error d → P d) :
    ∀ d, (x >>= f) = .error d → P d := by
  cases x with
  | error d =>
    rintro _ ⟨⟩
    exact hx d rfl
  | ok a => exact hf a rfl

namespace Chain

theorem allows_build {operand : Expr} {pieces : List Piece}
    (h : ∀ op, .operator op ∈ pieces → Allows P op.name.span) :
    ∀ d, build operand pieces = .error d → P d := by
  fun_induction build operand pieces with
  | case1 => rintro _ ⟨⟩
  | case2 _ _ _ ih => exact ih fun op hop => h op (List.mem_cons_of_mem _ hop)
  | case3 _ op =>
    rintro _ ⟨⟩
    exact h op (by simp) _ rfl
  | case4 _ _ op =>
    rintro _ ⟨⟩
    exact h op (by simp) _ rfl
  | case5 operand op next pieces ih =>
    refine error_bind (ih fun op hop => h op (by simp [hop])) fun chain _ => ?_
    rintro _ ⟨⟩

/-- The operators of a chain are those of its pieces. -/
theorem mem_of_build {operand : Expr} {pieces : List Piece} {chain : Chain}
    (h : build operand pieces = .ok chain) : ∀ link ∈ chain.links, .operator link.1 ∈ pieces := by
  fun_induction build operand pieces generalizing chain with
  | case1 =>
    obtain rfl := Except.ok.inj h
    simp
  | case2 _ _ _ ih => exact fun link hlink => List.mem_cons_of_mem _ (ih h link hlink)
  | case3 | case4 => cases h
  | case5 operand op next pieces ih =>
    cases hbuild : build next pieces with
    | error d => simp [hbuild, bind, Except.bind] at h
    | ok rest =>
      obtain rfl : ⟨operand, (op, rest.head) :: rest.links⟩ = chain := by
        simpa [hbuild, bind, Except.bind] using h
      refine List.forall_mem_cons.2 ⟨by simp, fun link hlink => ?_⟩
      exact List.mem_cons_of_mem _ (List.mem_cons_of_mem _ (ih hbuild link hlink))

theorem allows_ofPieces {span : Span} {pieces : List Piece} (hspan : Allows P span)
    (h : ∀ op, .operator op ∈ pieces → Allows P op.name.span) :
    ∀ d, ofPieces span pieces = .error d → P d := by
  rw [ofPieces.eq_def]
  split
  · rintro _ ⟨⟩
    exact hspan _ rfl
  · rintro _ ⟨⟩
    exact h _ List.mem_cons_self _ rfl
  · exact allows_build fun op hop => h op (List.mem_cons_of_mem _ hop)

theorem mem_of_ofPieces {span : Span} {pieces : List Piece} {chain : Chain}
    (h : ofPieces span pieces = .ok chain) :
    ∀ link ∈ chain.links, .operator link.1 ∈ pieces := by
  rw [ofPieces.eq_def] at h
  split at h
  · cases h
  · cases h
  · exact fun link hlink => List.mem_cons_of_mem _ (mem_of_build h link hlink)

theorem allows_checkPrevious {previous : Option Operator} {op : Operator}
    (h : Allows P op.name.span) : ∀ d, checkPrevious previous op = .error d → P d := by
  intro d hd
  cases previous with
  | none => simp [checkPrevious] at hd
  | some previous =>
    simp only [checkPrevious, checkMeeting] at hd
    split at hd
    · simp at hd
    · split at hd
      · exact Except.error.inj hd ▸ h _ rfl
      · split at hd
        · exact Except.error.inj hd ▸ h _ rfl
        · simp at hd

/-- A group leaves the end of what it was given. -/
theorem suffix_of_gathered {budget floor : Nat} {previous : Option Operator} {operand e : Expr}
    {links left : List (Operator × Expr)}
    (h : gathered budget floor previous operand links = .ok (e, left)) : left <:+ links := by
  refine gathered_induct (P := fun _ _ links _ left => left <:+ links) ?_ ?_ h
  · intro floor operand links _
    exact List.suffix_refl links
  · intro floor operand op next links right left e rest hleft hrest
    exact (hrest.trans hleft).trans (List.suffix_cons _ _)

theorem allows_gathered {budget floor : Nat} {previous : Option Operator} {operand : Expr}
    {links : List (Operator × Expr)} (h : ∀ link ∈ links, Allows P link.1.name.span) :
    ∀ d, gathered budget floor previous operand links = .error d → P d := by
  -- On the number of links: the right operand takes some of them, and the rest is
  -- grouped after it.
  induction hn : links.length using Nat.strongRecOn
    generalizing budget floor previous operand links with
  | _ n ih =>
    subst hn
    cases links with
    | nil => simp [gathered_nil]
    | cons link links =>
      obtain ⟨op, next⟩ := link
      obtain ⟨hop, hlinks⟩ := List.forall_mem_cons.1 h
      rw [gathered_cons]
      split
      · nofun
      · refine error_bind (allows_checkPrevious hop) fun _ _ => ?_
        split
        · rintro _ ⟨⟩
          exact hop _ rfl
        · refine error_bind (ih links.length (by simp) hlinks rfl) fun r hr => ?_
          have hleft := suffix_of_gathered hr
          exact ih r.2.length (Nat.lt_succ_of_le hleft.length_le)
            (fun link hlink => hlinks link (hleft.subset hlink)) rfl

theorem allows_group {budget : Nat} {chain : Chain}
    (h : ∀ link ∈ chain.links, Allows P link.1.name.span) :
    ∀ d, chain.group budget = .error d → P d := by
  refine error_bind (fun d hd => ?_) fun r _ => nofun
  have hgathered : gathered budget 0 none chain.head chain.links = .error d := by
    rw [gathered, hd]
    rfl
  exact allows_gathered h d hgathered

end Chain

/-- The problems of a run are at the run or at its operators. -/
theorem within_groupPieces {budget : Nat} {span : Span} {pieces : List Piece}
    (hspan : Allows P span) (h : ∀ op, .operator op ∈ pieces → Allows P op.name.span) :
    (groupPieces budget span pieces).Within P := by
  rw [groupPieces_eq]
  exact .raise (error_bind (Chain.allows_ofPieces hspan h) fun _ hchain =>
    Chain.allows_group fun link hlink => h link.1 (Chain.mem_of_ofPieces hchain link hlink))

/-! ## What each node may have -/

/-- What is known of expressions, atoms and declarations, with the levels that
are left for them, such that `P` holds of the problems they have themselves and
the same is known of their parts. -/
structure Faults (limit : Nat) (P : Diagnostic → Prop) (E : Nat → Concrete.Expr → Prop)
    (A : Nat → Concrete.Atom → Prop) (D : Nat → Decl Concrete.Expr → Prop) : Prop where
  -- An expression without a level is not looked into.
  deep : ∀ {e}, E 0 e → P ((Problem.nestingTooDeep limit).at e.span)
  run : ∀ {n span atoms}, E (n + 1) (.run span atoms) → Allows P span ∧ ∀ a ∈ atoms, A n a
  arrow : ∀ {n span domain codomain}, E (n + 1) (.arrow span domain codomain) →
    Allows P (runSpan span domain) ∧ (∀ a ∈ domain, A n a) ∧ E n codomain
  bind : ∀ {n span binder bindings body}, E (n + 1) (.bind span binder bindings body) →
    (∀ p, .typed p ∈ bindings → E n p.type) ∧ E n body
  letIn : ∀ {n span decls body}, E (n + 1) (.letIn span decls body) →
    (∀ d ∈ decls, D n d) ∧ E n body
  -- Patterns are checked after they are resolved.
  pattern : ∀ {n e table r d}, E n e → (resolveExpr limit table n e).result = .ok r →
    ensurePattern r = .error d → P d
  atom : ∀ {n a}, A n a → Allows P a.span
  operator : ∀ {n a table op}, A n a → operator? table a = some op → Allows P op.name.span
  -- Atoms give up no level, nor do declarations: only expressions do.
  paren : ∀ {n span e}, A n (.paren span e) → E n e
  param : ∀ {n p}, A n (.param p) → E n p.type
  record : ∀ {n span builder fields}, A n (.record span builder fields) → ∀ f ∈ fields, E n f.value
  tail : ∀ {n e}, A n (.tail e) → E n e
  dataType : ∀ {n span header constructors}, D n (.dataType span header constructors) →
    (∀ p ∈ header.params, E n p.type) ∧ (∀ e ∈ header.type, E n e) ∧ ∀ g ∈ constructors, E n g.type
  emptyData : ∀ {n span header}, D n (.emptyData span header) →
    (∀ p ∈ header.params, E n p.type) ∧ ∀ e ∈ header.type, E n e
  recordType : ∀ {n span header builder fields decls},
    D n (.recordType span header builder fields decls) → (∀ p ∈ header.params, E n p.type) ∧
      (∀ e ∈ header.type, E n e) ∧ (∀ g ∈ fields, E n g.type) ∧ ∀ d ∈ decls, D n d
  moduleBlock : ∀ {n span name params decls}, D n (.moduleBlock span name params decls) →
    (∀ p ∈ params, E n p.type) ∧ ∀ d ∈ decls, D n d
  ascription : ∀ {n signature}, D n (.ascription signature) → E n signature.type
  clause : ∀ {n span patterns isOperator withPatterns withExpr rhs locals},
    D n (.clause span patterns isOperator withPatterns withExpr rhs locals) →
      (∀ e ∈ patterns, E n e) ∧ (∀ e ∈ withPatterns, E n e) ∧ (∀ e ∈ withExpr, E n e) ∧
        (∀ e ∈ rhs, E n e) ∧ ∀ d ∈ locals, D n d
  fixity : ∀ {n span fixity operators}, D n (.fixity span fixity operators) →
    ∀ name ∈ operators, Allows P name.span

namespace Faults

variable {limit : Nat} {E : Nat → Concrete.Expr → Prop} {A : Nat → Concrete.Atom → Prop}
  {D : Nat → Decl Concrete.Expr → Prop}

/-- One level deeper, or too deep. -/
theorem deeper {α : Type} (h : Faults limit P E A D) {levels : Nat} {e : Concrete.Expr}
    {body : Nat → Report α} (he : E levels e)
    (hbody : ∀ n, E (n + 1) e → (body n).Within P) :
    (Fixity.deeper limit levels e.span body).Within P := by
  cases levels with
  | zero => exact .fail (h.deep he)
  | succ n => exact hbody n he

theorem enter (h : Faults limit P E A D) (table : Table) {n : Nat}
    {decls : List (Decl Concrete.Expr)} (hds : ∀ d ∈ decls, D n d) :
    (Report.noted (table.enter decls)).Within P :=
  .noted (allows_enter fun _ _ _ hmem => h.fixity (hds _ hmem))

/-- The operators among resolved atoms are atoms of the run. -/
theorem operators (h : Faults limit P E A D) {table : Table} {n : Nat}
    {atoms : List Concrete.Atom} {pieces : List Piece} (has : ∀ a ∈ atoms, A n a)
    (hpieces : (resolveAtoms limit table n atoms).result = .ok pieces) :
    ∀ op, .operator op ∈ pieces → Allows P op.name.span := by
  have hall : ∀ piece ∈ pieces, ∀ op, piece = .operator op → Allows P op.name.span := by
    refine forall_mem_of_forall₂ (pieceResults_of_ok hpieces) (fun a _ piece hpiece ha op hop => ?_) has
    cases hpiece with
    | operator known =>
      obtain rfl := Piece.operator.inj hop
      exact h.operator ha known
    | operand => cases hop
  exact fun op hop => hall _ hop op rfl

mutual

theorem expr (h : Faults limit P E A D) (table : Table) {levels : Nat} : ∀ {e}, E levels e →
    (resolveExpr limit table levels e).Within P
  | .run span atoms, he => by
    rw [resolveExpr]
    refine h.deeper he fun n he => ?_
    obtain ⟨hspan, has⟩ := h.run he
    exact (h.atoms table has).bindValue fun pieces hpieces =>
      within_groupPieces hspan (h.operators has hpieces)
  | .arrow span domain codomain, he => by
    rw [resolveExpr]
    refine h.deeper he fun n he => ?_
    obtain ⟨hspan, has, hcodomain⟩ := h.arrow he
    split
    · split
      · rename_i culprit hculprit
        exact .fail (h.atom (has culprit (List.mem_of_find?_eq_some hculprit)) _ rfl)
      · exact (h.domain table has).bind fun params =>
          (h.expr table hcodomain).bind fun _ => .pure _
    · refine (h.atoms table has).bindValue fun pieces hpieces => ?_
      refine (within_groupPieces hspan (h.operators has hpieces)).bind fun _ => ?_
      exact (h.expr table hcodomain).bind fun _ => .pure _
  | .bind span binder bindings body, he => by
    rw [resolveExpr]
    refine h.deeper he fun n he => ?_
    obtain ⟨htypes, hbody⟩ := h.bind he
    exact (h.bindings table htypes).bind fun _ => (h.expr table hbody).bind fun _ => .pure _
  | .letIn span decls body, he => by
    rw [resolveExpr]
    refine h.deeper he fun n he => ?_
    obtain ⟨hds, hbody⟩ := h.letIn he
    refine (h.enter table hds).bind fun table => ?_
    refine (Report.Within.noted (h.decls table hds)).bind fun decls => ?_
    exact (h.expr table hbody).bind fun _ => .pure _

theorem atoms (h : Faults limit P E A D) (table : Table) {n : Nat} : ∀ {as}, (∀ a ∈ as, A n a) →
    (resolveAtoms limit table n as).Within P
  | [], _ => by
    rw [resolveAtoms]
    exact .pure _
  | a :: as, has => by
    obtain ⟨ha, has⟩ := List.forall_mem_cons.1 has
    have hpiece : (resolvePiece limit table n a).Within P := by
      rw [resolvePiece]
      split
      · exact .pure _
      · exact (h.operand table ha).map
    rw [resolveAtoms_cons]
    exact hpiece.bind fun _ => (h.atoms table has).bind fun _ => .pure _

theorem operand (h : Faults limit P E A D) (table : Table) {n : Nat} : ∀ {a}, A n a →
    (resolveAtom limit table n a).Within P
  | .leaf l, _ => by
    rw [resolveAtom]
    exact .pure _
  | .paren span e, ha => by
    rw [resolveAtom]
    exact (h.expr table (h.paren ha)).bind fun _ => .pure _
  | .param p, ha => by
    rw [resolveAtom]
    exact .fail (h.atom ha _ rfl)
  | .record span builder fields, ha => by
    rw [resolveAtom]
    exact (h.assignments table (h.record ha)).bind fun _ => .pure _
  | .tail e, ha => by
    rw [resolveAtom]
    exact h.expr table (h.tail ha)

theorem assignments (h : Faults limit P E A D) (table : Table) {n : Nat} :
    ∀ {fs : List (Assignment Concrete.Expr)}, (∀ f ∈ fs, E n f.value) →
      (resolveAssignments limit table n fs).Within P
  | [], _ => by
    rw [resolveAssignments]
    exact .pure _
  | ⟨span, name, value⟩ :: fs, hfs => by
    obtain ⟨hvalue, hfs⟩ := List.forall_mem_cons.1 hfs
    rw [resolveAssignments]
    exact (h.expr table hvalue).bind fun _ => (h.assignments table hfs).bind fun _ => .pure _

theorem domain (h : Faults limit P E A D) (table : Table) {n : Nat} : ∀ {as}, (∀ a ∈ as, A n a) →
    (resolveDomain limit table n as).Within P
  | [], _ => by
    rw [resolveDomain]
    exact .pure _
  | .param p :: as, has => by
    obtain ⟨hp, has⟩ := List.forall_mem_cons.1 has
    rw [resolveDomain]
    exact (h.typed table (h.param hp)).bind fun _ => (h.domain table has).bind fun _ => .pure _
  | .leaf _ :: as, has | .paren _ _ :: as, has | .record _ _ _ :: as, has | .tail _ :: as, has => by
    rw [resolveDomain]
    · exact h.domain table (List.forall_mem_cons.1 has).2
    · nofun

theorem typed (h : Faults limit P E A D) (table : Table) {n : Nat} :
    ∀ {p : Param Concrete.Expr}, E n p.type → (resolveParam limit table n p).Within P
  | ⟨span, isImplicit, names, type⟩, htype => by
    rw [resolveParam]
    exact (h.expr table htype).bind fun _ => .pure _

theorem params (h : Faults limit P E A D) (table : Table) {n : Nat} :
    ∀ {ps : List (Param Concrete.Expr)}, (∀ p ∈ ps, E n p.type) →
      (resolveParams limit table n ps).Within P
  | [], _ => by
    rw [resolveParams]
    exact .pure _
  | p :: ps, hps => by
    obtain ⟨hp, hps⟩ := List.forall_mem_cons.1 hps
    rw [resolveParams]
    exact (h.typed table hp).bind fun _ => (h.params table hps).bind fun _ => .pure _

theorem bindings (h : Faults limit P E A D) (table : Table) {n : Nat} :
    ∀ {bs : List (Binding Concrete.Expr)}, (∀ p, .typed p ∈ bs → E n p.type) →
      (resolveBindings limit table n bs).Within P
  | [], _ => by
    rw [resolveBindings]
    exact .pure _
  | .name m :: bs, hbs => by
    rw [resolveBindings]
    exact (h.bindings table fun p hp => hbs p (List.mem_cons_of_mem _ hp)).bind fun _ => .pure _
  | .typed p :: bs, hbs => by
    rw [resolveBindings]
    refine (h.typed table (hbs p List.mem_cons_self)).bind fun _ => ?_
    exact (h.bindings table fun p hp => hbs p (List.mem_cons_of_mem _ hp)).bind fun _ => .pure _

theorem option (h : Faults limit P E A D) (table : Table) {n : Nat} :
    ∀ {o : Option Concrete.Expr}, (∀ e ∈ o, E n e) → (resolveOption limit table n o).Within P
  | none, _ => by
    rw [resolveOption]
    exact .pure _
  | some e, ho => by
    rw [resolveOption]
    exact (h.expr table (ho e rfl)).map

theorem signatures (h : Faults limit P E A D) (table : Table) {n : Nat} :
    ∀ {gs : List (Signature Concrete.Expr)}, (∀ g ∈ gs, E n g.type) →
      (resolveSignatures limit table n gs).Within P
  | [], _ => by
    rw [resolveSignatures]
    exact .pure _
  | ⟨span, names, type⟩ :: gs, hgs => by
    obtain ⟨htype, hgs⟩ := List.forall_mem_cons.1 hgs
    rw [resolveSignatures]
    exact (h.expr table htype).bind fun _ => (h.signatures table hgs).bind fun _ => .pure _

theorem header (h : Faults limit P E A D) (table : Table) {n : Nat} :
    ∀ {header : Header Concrete.Expr}, (∀ p ∈ header.params, E n p.type) →
      (∀ e ∈ header.type, E n e) → (resolveHeader limit table n header).Within P
  | ⟨name, params, type⟩, hparams, htype => by
    rw [resolveHeader]
    exact (h.params table hparams).bind fun _ => (h.option table htype).bind fun _ => .pure _

theorem patterns (h : Faults limit P E A D) (table : Table) {n : Nat} :
    ∀ {es : List Concrete.Expr}, (∀ e ∈ es, E n e) → (resolvePatterns limit table n es).Within P
  | [], _ => by
    rw [resolvePatterns]
    exact .pure _
  | e :: es, hes => by
    obtain ⟨he, hes⟩ := List.forall_mem_cons.1 hes
    rw [resolvePatterns]
    refine (h.expr table he).bindValue fun r hr => ?_
    refine (Report.Within.raise fun d hd => h.pattern he hr hd).bind fun _ => ?_
    exact (h.patterns table hes).bind fun _ => .pure _

theorem decl (h : Faults limit P E A D) (table : Table) {n : Nat} : ∀ {d}, D n d →
    (resolveDecl limit table n d).Within P
  | .dataType span header constructors, hd => by
    obtain ⟨hparams, htype, htypes⟩ := h.dataType hd
    rw [resolveDecl]
    exact (h.header table hparams htype).bind fun _ =>
      (h.signatures table htypes).bind fun _ => .pure _
  | .emptyData span header, hd => by
    obtain ⟨hparams, htype⟩ := h.emptyData hd
    rw [resolveDecl]
    exact (h.header table hparams htype).bind fun _ => .pure _
  | .recordType span header builder fields decls, hd => by
    obtain ⟨hparams, htype, htypes, hds⟩ := h.recordType hd
    rw [resolveDecl]
    refine (h.header table hparams htype).bind fun header => ?_
    refine (h.enter table hds).bind fun table => ?_
    refine (Report.Within.noted (h.decls table hds)).bind fun decls => ?_
    exact (h.signatures table htypes).bind fun _ => .pure _
  | .moduleBlock span name params decls, hd => by
    obtain ⟨hparams, hds⟩ := h.moduleBlock hd
    rw [resolveDecl]
    refine (h.params table hparams).bind fun params => ?_
    refine (h.enter table hds).bind fun table => ?_
    exact (Report.Within.noted (h.decls table hds)).bind fun _ => .pure _
  | .importModule span kind name, _ => by
    rw [resolveDecl]
    exact .pure _
  | .ascription ⟨span, names, type⟩, hd => by
    rw [resolveDecl]
    exact (h.expr table (h.ascription hd)).bind fun _ => .pure _
  | .clause span patterns isOperator withPatterns withExpr rhs locals, hd => by
    obtain ⟨hleft, hothers, hwith, hrhs, hds⟩ := h.clause hd
    rw [resolveDecl]
    refine (h.patterns table hleft).bind fun sides => ?_
    refine (h.patterns table hothers).bind fun withPatterns => ?_
    refine (h.enter table hds).bind fun table => ?_
    refine (Report.Within.noted (h.decls table hds)).bind fun locals => ?_
    -- Both sides are resolved before the problem that stops one of them is raised.
    refine (h.option table hwith).deferBind fun withExpr hwith => ?_
    refine (h.option table hrhs).deferBind fun rhs hrhs => ?_
    exact (Report.Within.raise hwith).bind fun _ => (Report.Within.raise hrhs).bind fun _ => .pure _
  | .fixity span fixity operators, _ => by
    rw [resolveDecl]
    exact .pure _

theorem decls (h : Faults limit P E A D) (table : Table) {n : Nat} : ∀ {ds}, (∀ d ∈ ds, D n d) →
    ∀ d ∈ (resolveDecls limit table n ds).2, P d
  | [], _ => by simp [resolveDecls]
  | d :: ds, hds => by
    obtain ⟨hd, hds⟩ := List.forall_mem_cons.1 hds
    rw [resolveDecls]
    exact List.forall_mem_append.2 ⟨(h.decl table hd).settle, h.decls table hds⟩

end

/-- `P` holds of all problems of a file. -/
theorem file (h : Faults limit P E A D) {ds : List (Decl Concrete.Expr)}
    (hds : ∀ d ∈ ds, D limit d) : ∀ d ∈ (resolveFile limit ds).2, P d :=
  List.forall_mem_append.2 ⟨(h.enter .empty hds).recorded, h.decls _ hds⟩

/-- `P` holds of all problems of an expression and of the block that it is in. -/
theorem inBlock (h : Faults limit P E A D) {context : List (Decl Concrete.Expr)}
    {e : Concrete.Expr} (hcontext : ∀ d ∈ context, D limit d) (he : E limit e) :
    ∀ d ∈ (resolveIn limit context e).2, P d :=
  List.forall_mem_append.2 ⟨(h.enter .empty hcontext).recorded, (h.expr _ he).settle⟩

end Faults

/-! ## Patterns -/

/-- The problem that something is no pattern, found in what lies in a text where
`lies` says. -/
structure IsCulprit (lies : String → Span → Prop) (d : Diagnostic) : Prop where
  isGrouping : d.problem.isGrouping = true
  sited : ∀ source outer, lies source outer → d.Sited source

/-- A problem of a part is one of the whole. -/
theorem IsCulprit.of_part {part whole : String → Span → Prop} {d : Diagnostic}
    (h : IsCulprit part d) (hpart : ∀ source outer, whole source outer → ∃ inner, part source inner) :
    IsCulprit whole d :=
  ⟨h.isGrouping, fun source outer hwhole => (hpart source outer hwhole).elim (h.sited source)⟩

mutual

/-- What is no pattern is a part of what should be one. -/
theorem isCulprit_ensurePattern : ∀ e : Expr, ∀ d, ensurePattern e = .error d →
    IsCulprit (fun source outer => e.Lies source outer) d
  | .leaf _ => by simp [ensurePattern]
  | .paren _ e => by
    rw [ensurePattern]
    refine fun d hd => (isCulprit_ensurePattern e d hd).of_part fun source outer he => ?_
    cases he with
    | paren _ inner => exact ⟨_, inner⟩
  | .record _ _ fields => by
    rw [ensurePattern]
    refine fun d hd => (isCulprit_ensurePatternFields fields d hd).of_part fun source outer he => ?_
    cases he with
    | record _ _ values => exact ⟨_, values⟩
  | .app _ fn arg => by
    rw [ensurePattern]
    refine error_bind (fun d hd => (isCulprit_ensurePattern fn d hd).of_part ?_) fun _ _ d hd =>
      (isCulprit_ensurePattern arg d hd).of_part ?_
    · intro source outer he
      cases he with
      | app _ head => exact ⟨_, head⟩
    · intro source outer he
      cases he with
      | app _ _ operand => exact ⟨_, operand⟩
  | .operation _ _ left right => by
    rw [ensurePattern]
    refine error_bind (fun d hd => (isCulprit_ensurePattern left d hd).of_part ?_) fun _ _ d hd =>
      (isCulprit_ensurePattern right d hd).of_part ?_
    · intro source outer he
      cases he with
      | operation _ _ first => exact ⟨_, first⟩
    · intro source outer he
      cases he with
      | operation _ _ _ second => exact ⟨_, second⟩
  -- The problem is at the expression itself.
  | .arrow .. | .pi .. | .bind .. | .letIn .. => by
    rw [ensurePattern]
    rintro _ ⟨⟩
    exact ⟨rfl, fun source outer he => (Expr.located _ _ he).sited _⟩

theorem isCulprit_ensurePatternFields : ∀ fields : List (Assignment Expr), ∀ d,
    ensurePatternFields fields = .error d →
      IsCulprit (fun source outer => ∀ f ∈ fields, f.Lies source (Expr.Lies source) outer) d
  | [] => by simp [ensurePatternFields]
  | ⟨_, _, value⟩ :: fields => by
    rw [ensurePatternFields]
    refine error_bind (fun d hd => (isCulprit_ensurePattern value d hd).of_part ?_) fun _ _ d hd =>
      (isCulprit_ensurePatternFields fields d hd).of_part ?_
    · intro source outer hfields
      cases hfields _ List.mem_cons_self with
      | mk _ _ content => exact ⟨_, content⟩
    · intro source outer hfields
      exact ⟨outer, (List.forall_mem_cons.1 hfields).2⟩

end

/-! ## Problems of the parser -/

/-- A problem that does not miss a token. -/
def IsOwn (d : Diagnostic) : Prop := d.problem.isUnexpected = false

theorem isOwn_of_isGrouping {d : Diagnostic} (h : d.problem.isGrouping = true) : IsOwn d := by
  obtain ⟨problem, span⟩ := d
  cases problem <;> first | rfl | cases h

/-- Resolution does not miss tokens, whatever the tree. -/
theorem faults_isOwn (limit : Nat) :
    Faults limit IsOwn (fun _ _ => True) (fun _ _ => True) (fun _ _ => True) := by
  have hallows : ∀ span, Allows IsOwn span := fun _ _ h => isOwn_of_isGrouping h
  constructor
  case deep => exact fun _ => rfl
  case pattern => exact fun _ _ h => isOwn_of_isGrouping (isCulprit_ensurePattern _ _ h).isGrouping
  all_goals simp [hallows]

theorem isOwn_resolveFile (limit : Nat) (decls : List (Decl Concrete.Expr)) :
    ∀ d ∈ (resolveFile limit decls).2, IsOwn d :=
  (faults_isOwn limit).file fun _ _ => trivial

theorem isOwn_resolveIn (limit : Nat) (context : List (Decl Concrete.Expr)) (e : Concrete.Expr) :
    ∀ d ∈ (resolveIn limit context e).2, IsOwn d :=
  (faults_isOwn limit).inBlock (fun _ _ => trivial) trivial

end Fixity

end Offside
