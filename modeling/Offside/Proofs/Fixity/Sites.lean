-- SUMMARY: The problems of resolution are at stretches of the text.
import Offside.Proofs.Fixity.Problems
import Offside.Proofs.Fixity.Spans

/-! # Places of the problems of resolution

Resolution finds its problems at nodes of the tree, at operators among the atoms
of a run, and at parts of what a left-hand side resolves to. All of these lie in
the text if the tree does: `sited_resolveFile`. -/

namespace Offside

namespace Fixity

variable {source : String} {outer : Span}

theorem allows_of_lies {span : Span} (h : span.Lies source outer) :
    Allows (Diagnostic.Sited source) span :=
  fun problem _ => h.sited problem

/-- The span of a run lies where its atoms and what it is part of do. -/
theorem lies_runSpan {span : Span} {atoms : List Concrete.Atom} (hspan : span.Lies source outer)
    (heach : ∀ a ∈ atoms, a.Lies source outer) : (runSpan span atoms).Lies source outer := by
  rw [runSpan]
  split
  · rename_i first last hfirst hlast
    exact (Concrete.Atom.located _ _ (heach first (List.mem_of_mem_head? hfirst))).merge
      (Concrete.Atom.located _ _ (heach last (List.mem_of_getLast? hlast)))
  · exact hspan

theorem exists_header {header : Header Concrete.Expr}
    (h : header.Lies source (Concrete.Expr.Lies source) outer) :
    (∀ p ∈ header.params, ∃ outer, p.type.Lies source outer) ∧
      ∀ e ∈ header.type, ∃ outer, e.Lies source outer := by
  cases h with
  | mk _ telescope typing =>
    refine ⟨fun p hp => ?_, fun e he => ⟨_, typing e he⟩⟩
    cases telescope p hp with
    | mk _ _ typing => exact ⟨_, typing⟩

theorem exists_signatures {gs : List (Signature Concrete.Expr)}
    (h : ∀ g ∈ gs, g.Lies source (Concrete.Expr.Lies source) outer) :
    ∀ g ∈ gs, ∃ outer, g.type.Lies source outer := by
  intro g hg
  cases h g hg with
  | mk _ _ typing => exact ⟨_, typing⟩

/-- What lies in the text has its problems there. -/
theorem faults_sited (source : String) (limit : Nat) : Faults limit (Diagnostic.Sited source)
    (fun _ e => ∃ outer, e.Lies source outer) (fun _ a => ∃ outer, a.Lies source outer)
    (fun _ d => ∃ outer, d.Lies source (Concrete.Expr.Lies source) outer) where
  deep := by
    rintro e ⟨outer, he⟩
    exact (Concrete.Expr.located _ _ he).sited _
  run := by
    rintro n span atoms ⟨outer, he⟩
    cases he with
    | run lies each => exact ⟨allows_of_lies lies, fun a ha => ⟨_, each a ha⟩⟩
  arrow := by
    rintro n span domain codomain ⟨outer, he⟩
    cases he with
    | arrow lies each _ target =>
      exact ⟨allows_of_lies (lies_runSpan lies.self each), fun a ha => ⟨_, each a ha⟩, _, target⟩
  bind := by
    rintro n span binder bindings body ⟨outer, he⟩
    cases he with
    | bind _ bound result =>
      refine ⟨fun p hp => ?_, _, result⟩
      cases bound _ hp with
      | typed lies =>
        cases lies with
        | mk _ _ typing => exact ⟨_, typing⟩
  letIn := by
    rintro n span decls body ⟨outer, he⟩
    cases he with
    | letIn _ each _ result => exact ⟨fun d hd => ⟨_, each d hd⟩, _, result⟩
  pattern := by
    rintro n e table r d ⟨outer, he⟩ hr hd
    -- The problem is in the resolved pattern, which lies where the parsed one does.
    have hlies := (places source limit).expr e table n r outer hr he
    exact (isCulprit_ensurePattern r d hd).sited source outer hlies
  atom := by
    rintro n a ⟨outer, ha⟩
    exact allows_of_lies (Concrete.Atom.located _ _ ha)
  operator := by
    rintro n a table op ⟨outer, ha⟩ hop
    exact allows_of_lies (lies_operator? hop ha)
  paren := by
    rintro n span e ⟨outer, ha⟩
    cases ha with
    | paren _ inner => exact ⟨_, inner⟩
  param := by
    rintro n p ⟨outer, ha⟩
    cases ha with
    | param lies =>
      cases lies with
      | mk _ _ typing => exact ⟨_, typing⟩
  record := by
    rintro n span builder fields ⟨outer, ha⟩ f hf
    cases ha with
    | record _ _ values =>
      cases values f hf with
      | mk _ _ content => exact ⟨_, content⟩
  tail := by
    rintro n e ⟨outer, ha⟩
    cases ha with
    | tail inner => exact ⟨_, inner⟩
  dataType := by
    rintro n span header constructors ⟨outer, hd⟩
    cases hd with
    | dataType _ head types =>
      obtain ⟨hparams, htype⟩ := exists_header head
      exact ⟨hparams, htype, exists_signatures types⟩
  emptyData := by
    rintro n span header ⟨outer, hd⟩
    cases hd with
    | emptyData _ head => exact exists_header head
  recordType := by
    rintro n span header builder fields decls ⟨outer, hd⟩
    cases hd with
    | recordType _ head _ types _ each =>
      obtain ⟨hparams, htype⟩ := exists_header head
      exact ⟨hparams, htype, exists_signatures types, fun d hd => ⟨_, each d hd⟩⟩
  moduleBlock := by
    rintro n span name params decls ⟨outer, hd⟩
    cases hd with
    | moduleBlock _ _ telescope each =>
      refine ⟨fun p hp => ?_, fun d hd => ⟨_, each d hd⟩⟩
      cases telescope p hp with
      | mk _ _ typing => exact ⟨_, typing⟩
  ascription := by
    rintro n signature ⟨outer, hd⟩
    cases hd with
    | ascription lies =>
      cases lies with
      | mk _ _ typing => exact ⟨_, typing⟩
  clause := by
    rintro n span patterns isOperator withPatterns withExpr rhs locals ⟨outer, hd⟩
    cases hd with
    | clause _ left others scrutinee right each =>
      exact ⟨fun e he => ⟨_, left e he⟩, fun e he => ⟨_, others e he⟩,
        fun e he => ⟨_, scrutinee e he⟩, fun e he => ⟨_, right e he⟩, fun d hd => ⟨_, each d hd⟩⟩
  fixity := by
    rintro n span fixity operators ⟨outer, hd⟩ name hname
    cases hd with
    | fixity _ subjects => exact allows_of_lies (subjects name hname)

/-- The problems of resolving a file are at stretches of its text. -/
theorem sited_resolveFile (limit : Nat) {ds : List (Decl Concrete.Expr)}
    (hds : ∀ d ∈ ds, d.Lies source (Concrete.Expr.Lies source) outer) :
    ∀ d ∈ (resolveFile limit ds).2, d.Sited source :=
  (faults_sited source limit).file fun d hd => ⟨outer, hds d hd⟩

end Fixity

end Offside
