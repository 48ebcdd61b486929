-- SUMMARY: The names of a resolved tree can be read off its dump if its tokens can be read off a text.
import Offside.Proofs.Expr.Dumped
import Offside.Proofs.Fixity.Printed

/-! # Names of resolved trees

What a well-formed tree resolves to has no empty list of names. So its dump shows
all its names if each of them is a word. -/

namespace Offside

/-- The names of the expression can be read off if its tokens can. -/
def ExprNamed (e : Expr) : Prop := (∀ t ∈ e.tokens .braces, t.Legible) → e.Named

/-- The same of a declaration. -/
def DeclNamed (d : Decl Expr) : Prop := (∀ t ∈ writeDecl .braces .braces d, t.Legible) → d.Named

/-! ## Parts -/

theorem mem_braces {α : Type} {f : α → List Token} {xs : List α} {x : α} {t : Token} (hx : x ∈ xs)
    (ht : t ∈ f x) : t ∈ Style.braces.block (xs.map f) :=
  List.mem_append_left _ (List.mem_append_right _ (mem_intercalate hx ht))

theorem listed_segments {q : QualifiedName} (hne : q.segments ≠ [])
    (h : ∀ t ∈ q.tokens, t.Legible) : Name.Listed Name.token q.segments := by
  refine ⟨hne, fun n hn => h n.token ?_⟩
  obtain ⟨span, segments⟩ := q
  obtain ⟨m, ms, rfl⟩ := List.exists_cons_of_ne_nil hne
  rw [QualifiedName.tokens_cons]
  rcases List.mem_cons.1 hn with rfl | hn
  · exact List.mem_cons_self
  · exact List.mem_cons_of_mem _ (List.mem_flatMap.2 ⟨n, hn, by simp⟩)

/-- The same of a typed parameter. -/
def ParamNamed (p : Param Expr) : Prop :=
  (∀ t ∈ writeParam .braces p, t.Legible) → Name.Listed Name.boundToken p.names ∧ p.type.Named

/-- The same of a constructor, field or ascription. -/
def SignatureNamed (g : Signature Expr) : Prop :=
  (∀ t ∈ writeSignature .braces g, t.Legible) → Name.Listed Name.token g.names ∧ g.type.Named

theorem named_param {p : Param Expr} (hne : p.names ≠ []) (htype : ExprNamed p.type) :
    ParamNamed p := by
  intro h
  rw [writeParam_eq] at h
  simp only [List.cons_append, List.forall_mem_cons, List.forall_mem_append, List.forall_mem_map] at h
  obtain ⟨-, ⟨hnames, -, htokens⟩, -⟩ := h
  exact ⟨⟨hne, hnames⟩, htype htokens⟩

theorem named_signature {g : Signature Expr} (hne : g.names ≠ []) (htype : ExprNamed g.type) :
    SignatureNamed g := by
  intro h
  rw [writeSignature] at h
  simp only [List.forall_mem_append, List.forall_mem_cons, List.forall_mem_map] at h
  obtain ⟨hnames, -, htokens⟩ := h
  exact ⟨⟨hne, hnames⟩, htype htokens⟩

theorem named_option {t : Token} {o : Option Expr} (ho : ∀ e ∈ o, ExprNamed e)
    (h : ∀ u ∈ writeOption .braces t o, u.Legible) : ∀ e ∈ o, e.Named := by
  rintro e ⟨⟩
  rw [writeOption] at h
  exact ho e rfl fun u hu => h u (List.mem_cons_of_mem _ hu)

/-- A header with the names of its parameters and the types in it. -/
theorem named_header {header : Header Expr} (hparams : ∀ p ∈ header.params, ParamNamed p)
    (htype : ∀ e ∈ header.type, ExprNamed e) (h : ∀ t ∈ writeHeader .braces header, t.Legible) :
    header.Named ∧ (∀ p ∈ header.params, p.type.Named) ∧ ∀ e ∈ header.type, e.Named := by
  rw [writeHeader_eq] at h
  simp only [List.cons_append, List.forall_mem_cons, List.forall_mem_append] at h
  obtain ⟨hname, htokens, hoption⟩ := h
  have hall : ∀ p ∈ header.params, Name.Listed Name.boundToken p.names ∧ p.type.Named :=
    fun p hp => hparams p hp fun t ht => htokens t (List.mem_flatMap.2 ⟨p, hp, ht⟩)
  exact ⟨⟨hname, fun p hp => (hall p hp).1⟩, fun p hp => (hall p hp).2, named_option htype hoption⟩

/-- The head of an application and its arguments. -/
theorem Expr.Named.spine {e : Expr} (h : e.Named) : ∀ e' ∈ e.spine, e'.Named := by
  induction e using Expr.spine.induct with
  | case1 _ fn arg ih =>
    cases h with
    | app head operand =>
      rw [Expr.spine]
      exact List.forall_mem_append.2 ⟨ih head, List.forall_mem_singleton.2 operand⟩
  | case2 e hother =>
    rw [Expr.spine]
    · exact List.forall_mem_singleton.2 h
    · exact hother

namespace Fixity

theorem named_leftHandSide {r : Expr} (h : r.Named) : ∀ e ∈ (leftHandSide r).1, e.Named := by
  unfold leftHandSide
  split
  · cases h with
    | operation name first second =>
      simp only [List.forall_mem_cons]
      refine ⟨.leaf ?_, first, second, List.forall_mem_nil _⟩
      rintro q ⟨⟩
      exact ⟨List.cons_ne_nil _ _, List.forall_mem_singleton.2 name⟩
  · exact h.spine

theorem Grouped.named {pieces : List Piece} {r : Expr} (h : Grouped pieces r)
    (hpieces : ∀ e, .operand e ∈ pieces → ExprNamed e) : ExprNamed r := by
  induction h with
  | operand e => exact hpieces e List.mem_cons_self
  | apply arg _ _ ih =>
    intro hlegible
    rw [Expr.apply, Expr.tokens, List.forall_mem_append] at hlegible
    exact .app (ih (fun e he => hpieces e (List.mem_append_left _ he)) hlegible.1)
      (hpieces arg (List.mem_append_right _ List.mem_cons_self) hlegible.2)
  | operate op _ _ ih₁ ih₂ =>
    intro hlegible
    rw [Expr.operate, Expr.tokens, List.forall_mem_append, List.forall_mem_cons] at hlegible
    obtain ⟨hleft, hname, hright⟩ := hlegible
    exact .operation hname (ih₁ (fun e he => hpieces e (List.mem_append_left _ he)) hleft)
      (ih₂ (fun e he => hpieces e (List.mem_append_right _ (List.mem_cons_of_mem _ he))) hright)

theorem named_headerRel {header : Header Concrete.Expr} {h : Header Expr}
    (hrel : header.Rel (fun _ r => ExprNamed r) h) (hne : ∀ p ∈ header.params, p.names ≠ [])
    (hlegible : ∀ t ∈ writeHeader .braces h, t.Legible) :
    h.Named ∧ (∀ p ∈ h.params, p.type.Named) ∧ ∀ e ∈ h.type, e.Named := by
  refine named_header ?_ (forall_of_optionRel hrel.type) hlegible
  exact forall_of_forall₂ hrel.params fun p hp q hq => named_param (hq.names ▸ hne p hp) hq.type

/-- The names of what a well-formed tree resolves to can be read off if its tokens
can. -/
theorem named (limit : Nat) : Resolution limit (fun _ r => ExprNamed r) (fun _ r => ExprNamed r)
    (fun _ d => DeclNamed d) where
  run _ hpieces hgrouped := hgrouped.named (operand_of_forall₂ hpieces)
  arrow := by
    intro levels span domain codomain pieces r t _ hpieces hgrouped ht hlegible
    rw [Expr.tokens, List.forall_mem_append, List.forall_mem_cons] at hlegible
    exact .arrow (hgrouped.named (operand_of_forall₂ hpieces) hlegible.1) (ht hlegible.2.2)
  pi := by
    intro levels span domain codomain params t hwf hdomain ht hlegible
    rw [Expr.tokens, writeParams_eq, List.forall_mem_append, List.forall_mem_cons] at hlegible
    obtain ⟨htokens, -, htarget⟩ := hlegible
    cases hwf with
    | arrow ne_nil _ each _ =>
      have hnamed : ∀ p ∈ params, ParamNamed p := by
        refine forall_of_forall₂ hdomain fun a ha p hp => ?_
        cases hp with
        | param hrel =>
          cases each _ ha with
          | param names _ => exact named_param (hrel.names ▸ names) hrel.type
      have hparams := fun p hp => hnamed p hp fun t ht => htokens t (List.mem_flatMap.2 ⟨p, hp, ht⟩)
      -- The domain of the grammar has an atom, and it is a parameter here.
      have hne : params ≠ [] := by
        rintro rfl
        exact ne_nil (List.forall₂_nil_right_iff.1 hdomain)
      exact .pi hne (fun p hp => (hparams p hp).1) (fun p hp => (hparams p hp).2) (ht htarget)
  bind := by
    intro levels span binder bindings body bs r hwf hbs hr hlegible
    rw [Expr.tokens, writeBindings_eq] at hlegible
    simp only [List.cons_append, List.forall_mem_cons, List.forall_mem_append] at hlegible
    obtain ⟨-, htokens, -, hbody⟩ := hlegible
    cases hwf with
    | bind _ names _ _ =>
      have hnamed : ∀ b ∈ bs, ∀ p, b = .typed p → ParamNamed p := by
        refine forall_of_forall₂ hbs fun b hb b' hrel => ?_
        cases hrel with
        | name n => simp
        | typed hparam =>
          rintro p ⟨⟩
          exact named_param (hparam.names ▸ names _ hb) hparam.type
      have hparams := fun p hp => hnamed (.typed p) hp p rfl fun t ht =>
        htokens t (List.mem_flatMap.2 ⟨.typed p, hp, ht⟩)
      refine .bind (fun n hn => ?_) (fun p hp => (hparams p hp).1) (fun p hp => (hparams p hp).2)
        (hr hbody)
      -- A hole may stand for a bound name, so the token is not always the name's.
      exact htokens n.boundToken (List.mem_flatMap.2 ⟨.name n, hn, List.mem_singleton_self _⟩)
  letIn := by
    intro span decls body rs r hrs hr hlegible
    rw [Expr.tokens, writeDecls_eq] at hlegible
    simp only [List.cons_append, List.forall_mem_cons, List.forall_mem_append] at hlegible
    obtain ⟨-, hblock, -, hbody⟩ := hlegible
    refine .letIn (fun d hd => ?_) (hr hbody)
    exact forall_of_forall₂ hrs (fun _ _ _ h => h) d hd fun t ht => hblock t (mem_braces hd ht)
  leaf := by
    intro levels l hwf hlegible
    rw [Expr.tokens] at hlegible
    cases hwf with
    | leaf segments =>
      refine .leaf fun q hq => ?_
      subst hq
      exact listed_segments (segments q rfl) hlegible
  paren := by
    intro span e r hr hlegible
    rw [Expr.tokens, List.cons_append, List.forall_mem_cons, List.forall_mem_append] at hlegible
    exact .paren (hr hlegible.2.1)
  record := by
    intro levels span builder fields rs hwf hrs hlegible
    rw [Expr.tokens, writeAssignments_eq] at hlegible
    simp only [List.cons_append, List.forall_mem_cons, List.forall_mem_append] at hlegible
    obtain ⟨-, ⟨hbuilder, -, htokens⟩, -⟩ := hlegible
    have hfield : ∀ f ∈ rs, ∀ t ∈ f.name.token :: .equals :: f.value.tokens .braces, t.Legible :=
      fun f hf t ht => htokens t (mem_intercalate hf ht)
    cases hwf with
    | record segments _ =>
      refine .record (fun q hq => ?_) (fun f hf => hfield f hf _ List.mem_cons_self) fun f hf => ?_
      · subst hq
        exact listed_segments (segments q rfl) hbuilder
      · exact forall_of_forall₂ hrs (fun _ _ _ h => h.value) f hf fun t ht =>
          hfield f hf t (List.mem_cons_of_mem _ (List.mem_cons_of_mem _ ht))
  tail hr := hr
  dataType := by
    intro levels span header constructors h gs hwf hheader hgs hlegible
    rw [writeDecl, writeSignatures_eq] at hlegible
    simp only [List.cons_append, List.forall_mem_cons, List.forall_mem_append] at hlegible
    obtain ⟨-, hhead, -, hblock⟩ := hlegible
    cases hwf with
    | dataType names _ _ constructorNames _ =>
      obtain ⟨hhead, hparams, htype⟩ := named_headerRel hheader names hhead
      have hnamed : ∀ g ∈ gs, SignatureNamed g := forall_of_forall₂ hgs fun g hg k hrel =>
        named_signature (hrel.names ▸ constructorNames g hg) hrel.type
      have hall := fun g hg => hnamed g hg fun t ht => hblock t (mem_braces hg ht)
      exact .dataType hhead hparams htype (fun g hg => (hall g hg).1) fun g hg => (hall g hg).2
  emptyData := by
    intro levels span header h hwf hheader hlegible
    rw [writeDecl, List.forall_mem_cons] at hlegible
    cases hwf with
    | emptyData names _ _ =>
      obtain ⟨hhead, hparams, htype⟩ := named_headerRel hheader names hlegible.2
      exact .emptyData hhead hparams htype
  recordType := by
    intro levels span header builder fields decls h gs rs hwf hheader hgs hrs hlegible
    rw [writeDecl_recordType, Style.arrange_braces] at hlegible
    simp only [List.cons_append, List.forall_mem_cons, List.forall_mem_append] at hlegible
    obtain ⟨-, hhead, -, hblock⟩ := hlegible
    -- The members are written in one block, whatever they are.
    have hmember : ∀ m ∈ writeMembers .braces .braces builder gs rs, ∀ t ∈ m.2, t.Legible :=
      fun m hm t ht => hblock t (mem_braces hm ht)
    simp only [writeMembers, List.forall_mem_append, List.forall_mem_map, List.forall_mem_cons] at hmember
    obtain ⟨⟨hbuilder, hfields⟩, hdecls⟩ := hmember
    cases hwf with
    | recordType names _ _ fieldNames _ _ =>
      obtain ⟨hhead, hparams, htype⟩ := named_headerRel hheader names hhead
      have hnamed : ∀ g ∈ gs, SignatureNamed g := forall_of_forall₂ hgs fun g hg k hrel =>
        named_signature (hrel.names ▸ fieldNames g hg) hrel.type
      have hall := fun g hg => hnamed g hg (hfields g hg).2
      refine .recordType hhead hparams htype (fun n hn => ?_) (fun g hg => (hall g hg).1)
        (fun g hg => (hall g hg).2) fun d hd => ?_
      · exact (hbuilder n (by simpa using hn)).2.1
      · exact forall_of_forall₂ hrs (fun _ _ _ h => h) d hd (hdecls d hd)
  moduleBlock := by
    intro levels span name params decls ps rs hwf hps hrs hlegible
    rw [writeDecl, writeParams_eq, writeDecls_eq] at hlegible
    simp only [List.cons_append, List.forall_mem_cons, List.forall_mem_append] at hlegible
    obtain ⟨-, ⟨hname, htokens⟩, -, hblock⟩ := hlegible
    cases hwf with
    | moduleBlock segments names _ _ =>
      have hnamed : ∀ p ∈ ps, ParamNamed p := forall_of_forall₂ hps fun p hp q hrel =>
        named_param (hrel.names ▸ names p hp) hrel.type
      have hall := fun p hp => hnamed p hp fun t ht => htokens t (List.mem_flatMap.2 ⟨p, hp, ht⟩)
      refine .moduleBlock (listed_segments segments hname) (fun p hp => (hall p hp).1)
        (fun p hp => (hall p hp).2) fun d hd => ?_
      exact forall_of_forall₂ hrs (fun _ _ _ h => h) d hd fun t ht => hblock t (mem_braces hd ht)
  importModule := by
    intro levels span kind name hwf hlegible
    rw [writeDecl, List.forall_mem_append] at hlegible
    cases hwf with
    | importModule segments => exact .importModule (listed_segments segments hlegible.2)
  ascription := by
    intro levels signature g hwf hrel hlegible
    rw [writeDecl_ascription] at hlegible
    cases hwf with
    | ascription names _ =>
      obtain ⟨hnames, htype⟩ := named_signature (hrel.names ▸ names) hrel.type hlegible
      exact .ascription hnames htype
  clause := by
    intro span lhs withPatterns withExpr rhs locals r ws w r' rs hr hpattern hws hw hr' hrs hlegible
    rw [writeDecl, leftHandSide_tokens, writeExprs_eq, writeDecls_eq] at hlegible
    simp only [List.forall_mem_append] at hlegible
    obtain ⟨⟨⟨⟨hleft, hothers⟩, hwith⟩, hright⟩, hblock⟩ := hlegible
    refine .clause (named_leftHandSide (hr hleft)) (fun e he => ?_)
      (named_option (forall_of_optionRel hw) hwith) (named_option (forall_of_optionRel hr') hright)
      fun d hd => ?_
    · refine forall_of_forall₂ hws (fun _ _ _ h => h) e he fun t ht => hothers t ?_
      rw [List.map_map, List.mem_flatten]
      exact ⟨_, List.mem_map_of_mem he, List.mem_cons_of_mem _ ht⟩
    -- A clause without local declarations has no block.
    · refine forall_of_forall₂ hrs (fun _ _ _ h => h) d hd fun t ht => hblock t ?_
      rw [if_neg (by simpa using List.ne_nil_of_mem hd)]
      exact List.mem_cons_of_mem _ (mem_braces hd ht)
  fixity := by
    intro levels span fixity operators hwf hlegible
    rw [writeDecl, List.forall_mem_cons, List.forall_mem_cons, List.forall_mem_map] at hlegible
    cases hwf with
    | fixity _ literal operators_ne => exact .fixity literal ⟨operators_ne, hlegible.2.2⟩

end Fixity

end Offside
