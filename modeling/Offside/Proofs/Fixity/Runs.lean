-- SUMMARY: Runs of an expression: which ones are rejected for their operators, and how the others are grouped.
import Offside.Proofs.Fixity.Climbing
import Offside.Proofs.Fixity.Results

/-! # Runs

The operators of a run are known from its atoms. A run of which they can be told
apart from operands is a chain, so what climbing makes of chains holds of runs:
`climb_unambiguous` for those whose operators agree, and `run_rejected_iff` for
those whose operators clash. -/

namespace Offside

namespace Fixity

/-- The operator that a member of a run is, if it is one. -/
def Piece.operator? : Piece → Option Operator
  | .operand _ => none
  | .operator op => some op

@[simp] theorem Piece.operator?_operand (e : Expr) : (Piece.operand e).operator? = none := rfl

@[simp] theorem Piece.operator?_operator (op : Operator) :
    (Piece.operator op).operator? = some op := rfl

/-- Resolve the atoms of a run and group them, as an expression and the domain of
an arrow do. -/
def resolveRun (limit : Nat) (table : Table) (levels : Nat) (span : Span)
    (atoms : List Concrete.Atom) : Report Expr :=
  resolveAtoms limit table levels atoms >>= groupPieces levels span

theorem resolveExpr_run (limit : Nat) (table : Table) (levels : Nat) (span : Span)
    (atoms : List Concrete.Atom) :
    resolveExpr limit table (levels + 1) (.run span atoms) =
      resolveRun limit table levels span atoms := by
  rw [resolveExpr]
  rfl

namespace Chain

/-- Operands and operators alternate if an operand follows every operator. -/
theorem build_eq_ok {operand : Expr} {pieces : List Piece}
    (hsides : ∀ before op after, pieces.map Piece.operator? = before ++ some op :: after →
      after.head? = some none) :
    ∃ chain, build operand pieces = .ok chain ∧
      chain.operators = pieces.filterMap Piece.operator? := by
  fun_induction build operand pieces with
  | case1 operand => exact ⟨⟨operand, []⟩, rfl, rfl⟩
  | case2 operand arg pieces ih =>
    exact ih fun before op after h => hsides (none :: before) op after (by simp [h])
  | case3 operand op => simpa using hsides [] op [] rfl
  | case4 operand op op' pieces =>
    simpa using hsides [] op (some op' :: pieces.map Piece.operator?) rfl
  | case5 operand op next pieces ih =>
    obtain ⟨chain, hbuild, hops⟩ := ih fun before o after h =>
      hsides (some op :: none :: before) o after (by simp [h])
    refine ⟨⟨operand, (op, chain.head) :: chain.links⟩, ?_, ?_⟩
    · simp [hbuild, bind, Except.bind]
    · simpa [operators, List.filterMap_cons] using hops

theorem ofPieces_eq_ok {span : Span} {pieces : List Piece} (hne : pieces ≠ [])
    (hsides : ∀ before op after, pieces.map Piece.operator? = before ++ some op :: after →
      before.getLast? = some none ∧ after.head? = some none) :
    ∃ chain, ofPieces span pieces = .ok chain ∧
      chain.operators = pieces.filterMap Piece.operator? := by
  cases pieces with
  | nil => contradiction
  | cons piece pieces =>
    cases piece with
    | operator op => simpa using (hsides [] op (pieces.map Piece.operator?) rfl).1
    | operand e =>
      exact build_eq_ok fun before op after h =>
        (hsides (none :: before) op after (by simp [h])).2

theorem build_ne_missingOperand {operand : Expr} {pieces : List Piece} {d : Diagnostic}
    (h : build operand pieces = .error d) : d.problem ≠ .missingOperand := by
  fun_induction build operand pieces with
  | case1 => cases h
  | case2 operand arg pieces ih => exact ih h
  | case3 | case4 =>
    obtain rfl := Except.error.inj h
    rintro ⟨⟩
  | case5 operand op next pieces ih =>
    cases hbuild : build next pieces with
    | error d' =>
      obtain rfl : d' = d := by simpa [hbuild, bind, Except.bind] using h
      exact ih hbuild
    | ok chain => simp [hbuild, bind, Except.bind] at h

end Chain

section

variable {limit : Nat} {table : Table} {levels : Nat} {atoms : List Concrete.Atom}

/-- A run whose operands resolve is a sequence of operands and operators. -/
theorem exists_resolveAtoms (h : ∀ a ∈ atoms, operator? table a = none →
      ∃ e, (resolveAtom limit table levels a).result = .ok e) :
    ∃ pieces, (resolveAtoms limit table levels atoms).result = .ok pieces := by
  induction atoms with
  | nil => exact ⟨[], by simp [resolveAtoms]⟩
  | cons a atoms ih =>
    obtain ⟨ha, hothers⟩ := List.forall_mem_cons.1 h
    obtain ⟨pieces, hpieces⟩ := ih hothers
    obtain ⟨piece, hpiece⟩ : ∃ piece, (resolvePiece limit table levels a).result = .ok piece := by
      unfold resolvePiece
      split
      · exact ⟨_, rfl⟩
      · rename_i hnone
        obtain ⟨e, he⟩ := ha hnone
        exact ⟨.operand e, Report.result_map_iff.2 ⟨e, he, rfl⟩⟩
    refine ⟨piece :: pieces, ?_⟩
    simp only [resolveAtoms_cons, Report.result_bind_iff, Report.result_pure]
    exact ⟨piece, hpiece, pieces, hpieces, rfl⟩

/-- Which members of a run are operators is seen in its atoms. -/
theorem map_operator?_of_resolveAtoms {pieces : List Piece}
    (h : (resolveAtoms limit table levels atoms).result = .ok pieces) :
    pieces.map Piece.operator? = atoms.map (operator? table) := by
  refine map_eq_of_forall₂ (pieceResults_of_ok h) fun a piece hpiece => ?_
  cases hpiece with
  | operator known => exact known.symm
  | operand unknown => exact unknown.symm

/-- A run whose operands resolve, whose operators have operands on both sides,
and which does not nest too deep, is rejected if and only if two of its operators
clash that climbing compares: they meet, and the first does not group to the right
or they stand next to each other. -/
theorem run_rejected_iff {span : Span}
    (hoperands : ∀ a ∈ atoms, operator? table a = none →
      ∃ e, (resolveAtom limit table levels a).result = .ok e)
    (hsides : ∀ before op after, atoms.map (operator? table) = before ++ some op :: after →
      before.getLast? = some none ∧ after.head? = some none)
    (hdeep : ∀ op place, (resolveRun limit table levels span atoms).result ≠
      .error ((Problem.chainTooDeep op).at place)) :
    (∃ d, (resolveRun limit table levels span atoms).result = .error d ∧
      d.problem.stage = .fixity) ↔
      ∃ first between second, Compared (atoms.filterMap (operator? table)) first between second ∧
        first.Clashes second := by
  obtain ⟨pieces, hpieces⟩ := exists_resolveAtoms hoperands
  have hmap := map_operator?_of_resolveAtoms hpieces
  have hresult : (resolveRun limit table levels span atoms).result =
      (groupPieces levels span pieces).result := Report.result_bind_of_ok hpieces
  rw [hresult] at hdeep ⊢
  cases atoms with
  | nil =>
    obtain rfl : pieces = [] := by simpa using hmap
    refine iff_of_false ?_ ?_
    · rintro ⟨d, hd, hstage⟩
      rw [groupPieces_eq] at hd
      obtain rfl := Except.error.inj hd
      cases hstage
    · rintro ⟨first, between, second, hcompared, -⟩
      simpa using hcompared.stretch
  | cons a atoms =>
    have hne : pieces ≠ [] := by
      rintro rfl
      simp at hmap
    obtain ⟨chain, hchain, hops⟩ : ∃ chain, Chain.ofPieces span pieces = .ok chain ∧
        chain.operators = pieces.filterMap Piece.operator? :=
      Chain.ofPieces_eq_ok hne (hmap ▸ hsides)
    have hgroup : (groupPieces levels span pieces).result = chain.group levels := by
      simp [groupPieces_eq, hchain, bind, Except.bind]
    have hatoms : pieces.filterMap Piece.operator? = (a :: atoms).filterMap (operator? table) := by
      have hsome := congrArg (List.filterMap id) hmap
      rwa [List.filterMap_map, List.filterMap_map] at hsome
    simp only [hgroup] at hdeep ⊢
    rw [← hatoms, ← hops]
    exact Chain.group_rejected_iff hdeep

/-- Climbing compares no two operators of `a ^ b * c + d` that clash, and `^` and
`+` do. -/
theorem run_rejected_iff_overlooked :
    let name (text : String) : Name := ⟨text, ⟨0, 0⟩⟩
    let power : Operator := ⟨name "^", ⟨.right, 5⟩⟩
    let times : Operator := ⟨name "*", ⟨.left, 7⟩⟩
    let plus : Operator := ⟨name "+", ⟨.left, 5⟩⟩
    let table : Table := ⟨[[⟨"^", power.fixity, ⟨0, 0⟩⟩, ⟨"*", times.fixity, ⟨0, 0⟩⟩,
      ⟨"+", plus.fixity, ⟨0, 0⟩⟩]]⟩
    let atoms : List Concrete.Atom := ["a", "^", "b", "*", "c", "+", "d"].map fun text =>
      .leaf (.name (.simple (name text)))
    atoms.filterMap (operator? table) = [power, times, plus] ∧
      Meets [power, times, plus] power [times] plus ∧ power.Clashes plus ∧
      (resolveRun 9 table 9 ⟨0, 0⟩ atoms).result.isOk ∧
      ¬ ∃ first between second, Compared [power, times, plus] first between second ∧
        first.Clashes second := by
  intro name power times plus table atoms
  have hok : (resolveRun 9 table 9 ⟨0, 0⟩ atoms).result.isOk := by decide +kernel
  have hnot (d : Diagnostic) : (resolveRun 9 table 9 ⟨0, 0⟩ atoms).result ≠ .error d := by
    intro hd
    simp [hd, Except.isOk, Except.toBool] at hok
  have hmap : atoms.map (operator? table) =
      [none, some power, none, some times, none, some plus, none] := rfl
  have hoperands : ∀ a ∈ atoms, operator? table a = none →
      ∃ e, (resolveAtom 9 table 9 a).result = .ok e := by
    intro a ha _
    obtain ⟨text, -, rfl⟩ := List.mem_map.1 ha
    exact ⟨_, rfl⟩
  have hsides : ∀ before op after, atoms.map (operator? table) = before ++ some op :: after →
      before.getLast? = some none ∧ after.head? = some none := by
    intro before op after h
    simp only [hmap, List.cons_eq_append_iff, List.cons.injEq, reduceCtorEq, Option.some.injEq,
      false_and, and_false, false_or, List.nil_eq_append_iff, exists_false, or_false] at h
    obtain ⟨_, rfl, ⟨rfl, -, rfl⟩ | ⟨_, rfl, _, rfl, ⟨rfl, -, rfl⟩ | ⟨_, rfl, _, rfl, rfl, -, rfl⟩⟩⟩ := h
    all_goals exact ⟨rfl, rfl⟩
  refine ⟨rfl, ⟨⟨[], [], rfl⟩, rfl, by decide⟩, .inl (by decide), hok, fun hclash => ?_⟩
  obtain ⟨d, hd, -⟩ := (run_rejected_iff hoperands hsides (fun _ _ => hnot _)).2 hclash
  exact hnot d hd

end

/-- A run that holds anything at all does not miss its operand. -/
theorem groupPieces_ne_missingOperand {budget : Nat} {span : Span} {pieces : List Piece}
    {d : Diagnostic} (hne : pieces ≠ []) (h : (groupPieces budget span pieces).result = .error d) :
    d.problem ≠ .missingOperand := by
  cases hchain : Chain.ofPieces span pieces with
  | error d' =>
    obtain rfl : d' = d := by simpa [groupPieces_eq, hchain, bind, Except.bind] using h
    cases pieces with
    | nil => contradiction
    | cons piece pieces =>
      cases piece with
      | operand e => exact Chain.build_ne_missingOperand hchain
      | operator op =>
        obtain rfl := Except.error.inj hchain
        rintro ⟨⟩
  | ok chain =>
    have hgroup : chain.group budget = .error d := by
      simpa [groupPieces_eq, hchain, bind, Except.bind] using h
    rcases Chain.group_cases budget chain with ⟨t, -, -, -, hok⟩ | ⟨op, hdeep⟩ | ⟨_, _, _, d', -, -, hd, hstage⟩
    · rw [hok] at hgroup
      cases hgroup
    · obtain rfl := Except.error.inj (hdeep.symm.trans hgroup)
      rintro ⟨⟩
    · obtain rfl := Except.error.inj (hd.symm.trans hgroup)
      intro hproblem
      simp [hproblem, Problem.stage] at hstage

namespace Queues

/-- The queues of a run that holds anything have one operand more than operators. -/
theorem length_operands_of_ofPieces {pieces : List Piece} {q : Queues} (hne : pieces ≠ [])
    (h : ofPieces pieces = .ok q) : q.operands.length = q.operators.length + 1 := by
  rw [ofPieces_eq hne default] at h
  cases hchain : Chain.ofPieces default pieces with
  | error d => simp [hchain, Except.map] at h
  | ok chain =>
    obtain rfl : chain.queues = q := by simpa [hchain, Except.map] using h
    simp [Chain.queues]

/-- From one operand more than operators, climbing leaves as many of both, and does
not fail for want of an operand. -/
theorem climb_cases {q : Queues} (h : q.operands.length = q.operators.length + 1) (span : Span)
    (budget floor : Nat) (previous : Option Operator) :
    (∃ e left, climb span budget floor previous q = .ok (e, left) ∧
      left.1.operands.length = left.1.operators.length) ∨
    ∃ d, climb span budget floor previous q = .error d ∧ d.problem ≠ .missingOperand := by
  obtain ⟨chain, rfl⟩ := exists_queues h
  cases hgathered : Chain.gathered budget floor previous chain.head chain.links with
  | ok r =>
    obtain ⟨hleft, hclimb⟩ := climb_eq_ok span chain hgathered
    exact .inl ⟨r.1, _, hclimb, by simp [ofLinks]⟩
  | error d =>
    refine .inr ⟨d, climb_eq_error span chain hgathered, ?_⟩
    rcases (Grouping.Fits.start chain.head floor previous chain.links).exists_of_error hgathered with
      ⟨op, rfl⟩ | ⟨first, between, second, -, hcheck⟩
    · rintro ⟨⟩
    · intro hproblem
      simpa [hproblem, Problem.stage] using (checkMeeting_eq_error hcheck).2.2

end Queues

/-- On an unambiguous chain climbing finds the one grouping that respects the
fixities, if the budget allows for it, and takes the whole chain. Else it finds
that the chain nests too deep. Whatever the fixities are, climbing never looks in
vain for an operand if it is given one more than operators, and so it is in a run
that is not empty. -/
theorem climb_unambiguous :
    (∀ queues : Queues, queues.operands.length = queues.operators.length + 1 →
      (Unambiguous queues.operators →
        ∃ t : Grouping, (∀ t' : Grouping, t'.chain.queues = queues ∧ t'.Respects ↔ t' = t) ∧
          ∀ span budget,
            (t.rightEdges ≤ budget → queues.climb span budget 0 none =
              .ok (t.expr, ⟨⟨[], []⟩, Nat.zero_le _⟩)) ∧
            (budget < t.rightEdges → ∃ op ∈ queues.operators, queues.climb span budget 0 none =
              .error ((Problem.chainTooDeep op.name.text).at op.name.span)) ∧
            ∀ d, queues.climb span budget 0 none = .error d → d.problem.stage ≠ .fixity) ∧
      ∀ span budget floor previous,
        (∀ e left, queues.climb span budget floor previous = .ok (e, left) →
          left.1.operands.length = left.1.operators.length) ∧
        ∀ d, queues.climb span budget floor previous = .error d → d.problem ≠ .missingOperand) ∧
    (∀ pieces queues, pieces ≠ [] → Queues.ofPieces pieces = .ok queues →
      queues.operands.length = queues.operators.length + 1) ∧
    ∀ limit table levels span atoms pieces d, atoms ≠ [] →
      (resolveAtoms limit table levels atoms).result = .ok pieces →
      (resolveRun limit table levels span atoms).result = .error d →
      d.problem ≠ .missingOperand := by
  refine ⟨fun queues hlength => ⟨fun h => ?_, fun span budget floor previous => ?_⟩,
    fun pieces queues => Queues.length_operands_of_ofPieces, ?_⟩
  · obtain ⟨chain, rfl⟩ := Queues.exists_queues hlength
    obtain ⟨t, rfl, hrespects⟩ := exists_respects h
    refine ⟨t, fun t' => ⟨fun h => h.2.unique hrespects (Chain.queues_injective h.1), ?_⟩,
      fun span budget => ?_⟩
    · rintro rfl
      exact ⟨rfl, hrespects⟩
    · have hok (hle : t.rightEdges ≤ budget) := hrespects.climbed.climb_eq span hle
      have herror (hlt : budget < t.rightEdges) := hrespects.climbed.exists_climb_eq_error span hlt
      refine ⟨hok, herror, fun d hd => ?_⟩
      rcases Nat.lt_or_ge budget t.rightEdges with hlt | hge
      · obtain ⟨op, -, hdeep⟩ := herror hlt
        obtain rfl := Except.error.inj (hdeep.symm.trans hd)
        rintro ⟨⟩
      · cases (hok hge).symm.trans hd
  · rcases Queues.climb_cases hlength span budget floor previous with
      ⟨e, left, hclimb, hleft⟩ | ⟨d, hclimb, hproblem⟩
    · refine ⟨fun e' left' h => ?_, fun d h => ?_⟩
      · obtain ⟨-, rfl⟩ := Prod.mk.inj (Except.ok.inj (hclimb.symm.trans h))
        exact hleft
      · cases hclimb.symm.trans h
    · refine ⟨fun e left h => ?_, fun d' h => ?_⟩
      · cases hclimb.symm.trans h
      · obtain rfl := Except.error.inj (hclimb.symm.trans h)
        exact hproblem
  · intro limit table levels span atoms pieces d hne hpieces herror
    have hresult : (resolveRun limit table levels span atoms).result =
        (groupPieces levels span pieces).result := Report.result_bind_of_ok hpieces
    refine groupPieces_ne_missingOperand ?_ (hresult ▸ herror)
    rintro rfl
    exact hne (by simpa using (map_operator?_of_resolveAtoms hpieces).symm)

/-- `a + b * c + d` with and without the levels it needs, and `+` alone. -/
theorem climb_unambiguous_sums :
    let name (text : String) : Name := ⟨text, ⟨0, 0⟩⟩
    let leaf (text : String) : Grouping := .operand (.leaf (.name (.simple (name text))))
    let plus : Operator := ⟨name "+", ⟨.left, 6⟩⟩
    let times : Operator := ⟨name "*", ⟨.left, 7⟩⟩
    let product := Grouping.operation times (leaf "b") (leaf "c")
    let sum := Grouping.operation plus (.operation plus (leaf "a") product) (leaf "d")
    let pieces := .operand sum.head :: sum.links.flatMap fun link =>
      [.operator link.1, .operand link.2]
    let atom : Concrete.Atom := .leaf (.name (.simple (name "+")))
    let queues := sum.chain.queues
    let climb budget := queues.climb ⟨0, 0⟩ budget 0 none
    let table : Table := ⟨[[⟨"+", ⟨.left, 6⟩, ⟨0, 0⟩⟩]]⟩
    pieces ≠ [] ∧ Queues.ofPieces pieces = .ok queues ∧
      queues.operands.length = queues.operators.length + 1 ∧ Unambiguous queues.operators ∧
      climb 2 = .ok (sum.expr, ⟨⟨[], []⟩, Nat.zero_le _⟩) ∧
      (∃ op ∈ queues.operators,
        climb 1 = .error ((Problem.chainTooDeep op.name.text).at op.name.span)) ∧
      ∃ d, (resolveRun 9 table 9 ⟨0, 0⟩ [atom]).result = .error d ∧
        d.problem ≠ .missingOperand := by
  intro name leaf plus times product sum pieces atom queues climb table
  have hunambiguous : Unambiguous queues.operators := by decide
  have hrespects : sum.Respects :=
    .operation (by simp [Grouping.root?, Operator.Allows, plus]) nofun
      (.operation nofun (by simp [product, Grouping.root?, Operator.Allows, plus, times]) .operand
        (.operation nofun nofun .operand .operand)) .operand
  have hne : pieces ≠ [] := List.cons_ne_nil _ _
  have hpieces : Queues.ofPieces pieces = .ok queues := rfl
  have hlength := climb_unambiguous.2.1 pieces queues hne hpieces
  obtain ⟨t, hunique, hclimb⟩ := (climb_unambiguous.1 queues hlength).1 hunambiguous
  obtain rfl : sum = t := (hunique sum).1 ⟨rfl, hrespects⟩
  exact ⟨hne, hpieces, hlength, hunambiguous, (hclimb _ 2).1 (by decide),
    (hclimb _ 1).2.1 (by decide),
    _, rfl, climb_unambiguous.2.2 9 table 9 ⟨0, 0⟩ [atom] _ _ (List.cons_ne_nil _ _) rfl rfl⟩

end Fixity

end Offside
