-- SUMMARY: A run as a chain of operands and operators that alternate, and what climbing its queues gives.
import Offside.Fixity.Resolve
import Offside.Proofs.Report.Outcome

/-! # Chains

A chain is an operand followed by pairs of an operator and an operand. The queues
of a run that holds anything are those of a chain (`Queues.ofPieces_eq`), so
climbing, which takes operands and operators one by one, always finds the operand
that it looks for. What it does with the queues of a chain is said of the chain by
`Chain.gathered`, with an equation and an induction of its own: `Chain.climb_queues`.
`resolvePiece` is what resolution does with one atom of a run. -/

namespace Offside

namespace Fixity

/-- An operand, and the operators after it, each with its right operand. -/
structure Chain where
  head : Expr
  links : List (Operator × Expr)

namespace Chain

/-! ## Building -/

/-- The chain of `operand` followed by `pieces`. Operands side by side are
applications, which bind tighter than any operator. -/
def build (operand : Expr) : List Piece → Except Diagnostic Chain
  | [] => .ok ⟨operand, []⟩
  | .operand arg :: pieces => build (operand.apply arg) pieces
  | [.operator op] => .error ((Problem.missingRightOperand op.name.text).at op.name.span)
  | .operator _ :: .operator op :: _ =>
    .error ((Problem.missingLeftOperand op.name.text).at op.name.span)
  | .operator op :: .operand next :: pieces => do
    let ⟨next, links⟩ ← build next pieces
    .ok ⟨operand, (op, next) :: links⟩

/-- The chain of a run with the given span: every operator needs an operand on
both sides. -/
def ofPieces (span : Span) : List Piece → Except Diagnostic Chain
  | [] => .error (Problem.missingOperand.at span)
  | .operator op :: _ => .error ((Problem.missingLeftOperand op.name.text).at op.name.span)
  | .operand first :: pieces => build first pieces

/-! ## Grouping -/

/-- The links that a group leaves, of those it was given. -/
abbrev Left (links : List (Operator × Expr)) : Type :=
  { left : List (Operator × Expr) // left.length ≤ links.length }

/-- Group `operand` with the operators after it that bind at least as tight as
`floor`. `previous` is the operator before `operand`, or the last one grouped
at this level. At most `budget` right operands may be open at once. -/
def gather (budget floor : Nat) (previous : Option Operator) (operand : Expr) :
    (links : List (Operator × Expr)) → Except Diagnostic (Expr × Left links)
  | [] => .ok (operand, ⟨[], Nat.le_refl _⟩)
  | (op, next) :: links =>
    if op.fixity.precedence < floor then .ok (operand, ⟨(op, next) :: links, Nat.le_refl _⟩)
    else do
      checkPrevious previous op
      match budget with
      | 0 => .error ((Problem.chainTooDeep op.name.text).at op.name.span)
      | budget + 1 =>
        let (right, ⟨left, h⟩) ← gather budget (rightFloor op.fixity) (some op) next links
        let (group, ⟨rest, h'⟩) ←
          gather (budget + 1) floor (some op) (.operate op.name operand right) left
        .ok (group, ⟨rest, Nat.le_succ_of_le (Nat.le_trans h' h)⟩)
  termination_by links => links.length

/-- The expression that a chain means. -/
def group (budget : Nat) (chain : Chain) : Except Diagnostic Expr := do
  let (e, _) ← gather budget 0 none chain.head chain.links
  .ok e

/-- What `gather` gives, without the bound on what it leaves. -/
def gathered (budget floor : Nat) (previous : Option Operator) (operand : Expr)
    (links : List (Operator × Expr)) : Except Diagnostic (Expr × List (Operator × Expr)) :=
  (gather budget floor previous operand links).map fun r => (r.1, r.2.1)

theorem gathered_nil {budget floor : Nat} {previous : Option Operator} {operand : Expr} :
    gathered budget floor previous operand [] = .ok (operand, []) := by
  rw [gathered, gather]
  rfl

theorem gathered_cons {budget floor : Nat} {previous : Option Operator} {operand next : Expr}
    {op : Operator} {links : List (Operator × Expr)} :
    gathered budget floor previous operand ((op, next) :: links) =
      if op.fixity.precedence < floor then .ok (operand, (op, next) :: links)
      else checkPrevious previous op >>= fun _ =>
        match budget with
        | 0 => .error ((Problem.chainTooDeep op.name.text).at op.name.span)
        | budget + 1 => gathered budget (rightFloor op.fixity) (some op) next links >>= fun r =>
          gathered (budget + 1) floor (some op) (.operate op.name operand r.1) r.2 := by
  cases budget with
  | zero =>
    rw [gathered, gather]
    split
    · rfl
    · cases checkPrevious previous op <;> rfl
  | succ budget =>
    rw [gathered, gather]
    split
    · rfl
    · cases checkPrevious previous op with
      | error d => rfl
      | ok =>
        simp only [gathered, bind, Except.bind]
        cases gather budget (rightFloor op.fixity) (some op) next links with
        | error d => rfl
        | ok r =>
          simp only [Except.map]
          cases gather (budget + 1) floor (some op) (.operate op.name operand r.1) r.2.1 <;> rfl

/-- A group either stops before the next operator, or takes it: the operator
agrees with the one before it, its right operand is grouped with less budget, and
what that leaves is grouped after it. -/
theorem gathered_cons_eq_ok {budget floor : Nat} {previous : Option Operator}
    {operand next e : Expr} {op : Operator} {links left : List (Operator × Expr)}
    (h : gathered budget floor previous operand ((op, next) :: links) = .ok (e, left)) :
    (op.fixity.precedence < floor ∧ e = operand ∧ left = (op, next) :: links) ∨
      (floor ≤ op.fixity.precedence ∧ checkPrevious previous op = .ok () ∧
        ∃ rest right middle, budget = rest + 1 ∧
          gathered rest (rightFloor op.fixity) (some op) next links = .ok (right, middle) ∧
          gathered budget floor (some op) (.operate op.name operand right) middle =
            .ok (e, left)) := by
  rw [gathered_cons] at h
  split at h
  · rename_i hfloor
    obtain ⟨rfl, rfl⟩ := Prod.mk.inj (Except.ok.inj h)
    exact .inl ⟨hfloor, rfl, rfl⟩
  · rename_i hfloor
    cases hcheck : checkPrevious previous op with
    | error d => simp [hcheck, bind, Except.bind] at h
    | ok =>
      simp only [hcheck, bind, Except.bind] at h
      split at h
      · simp at h
      · rename_i rest
        split at h
        · simp at h
        · rename_i r hr
          exact .inr ⟨Nat.not_lt.1 hfloor, rfl, rest, r.1, r.2, rfl, hr, h⟩

/-- A group that fails does so at the next operator, in its right operand, or
after it. -/
theorem gathered_cons_eq_error {budget floor : Nat} {previous : Option Operator}
    {operand next : Expr} {op : Operator} {links : List (Operator × Expr)} {d : Diagnostic}
    (h : gathered budget floor previous operand ((op, next) :: links) = .error d) :
    floor ≤ op.fixity.precedence ∧ (checkPrevious previous op = .error d ∨
      checkPrevious previous op = .ok () ∧
        (d = (Problem.chainTooDeep op.name.text).at op.name.span ∨
          ∃ rest, budget = rest + 1 ∧
            (gathered rest (rightFloor op.fixity) (some op) next links = .error d ∨
              ∃ right middle,
                gathered rest (rightFloor op.fixity) (some op) next links = .ok (right, middle) ∧
                gathered budget floor (some op) (.operate op.name operand right) middle =
                  .error d))) := by
  rw [gathered_cons] at h
  split at h
  · cases h
  · rename_i hfloor
    refine ⟨Nat.not_lt.1 hfloor, ?_⟩
    cases hcheck : checkPrevious previous op with
    | error d' =>
      simp only [hcheck, bind, Except.bind] at h
      exact .inl (congrArg _ (Except.error.inj h))
    | ok =>
      simp only [hcheck, bind, Except.bind] at h
      refine .inr ⟨rfl, ?_⟩
      split at h
      · exact .inl (Except.error.inj h).symm
      · rename_i rest
        split at h
        · rename_i hr
          exact .inr ⟨rest, rfl, .inl (hr.trans h)⟩
        · rename_i r hr
          exact .inr ⟨rest, rfl, .inr ⟨r.1, r.2, hr, h⟩⟩

theorem length_gathered {budget floor : Nat} {previous : Option Operator} {operand e : Expr}
    {links left : List (Operator × Expr)}
    (h : gathered budget floor previous operand links = .ok (e, left)) :
    left.length ≤ links.length := by
  rw [gathered] at h
  cases hr : gather budget floor previous operand links with
  | error d => simp [hr, Except.map] at h
  | ok r =>
    simp only [hr, Except.map, Except.ok.injEq, Prod.mk.injEq] at h
    obtain ⟨-, rfl⟩ := h
    exact r.2.2

/-- What holds of grouping nothing, and of grouping one operator more, holds of
every group. -/
theorem gathered_induct {P : (floor : Nat) → Expr → List (Operator × Expr) → Expr →
      List (Operator × Expr) → Prop}
    (done : ∀ floor operand links, (∀ link ∈ links.head?, link.1.fixity.precedence < floor) →
      P floor operand links operand links)
    (operate : ∀ floor operand op next links right left e rest,
      P (rightFloor op.fixity) next links right left →
      P floor (.operate op.name operand right) left e rest →
      P floor operand ((op, next) :: links) e rest)
    {budget floor : Nat} {previous : Option Operator} {operand e : Expr}
    {links left : List (Operator × Expr)}
    (h : gathered budget floor previous operand links = .ok (e, left)) :
    P floor operand links e left := by
  induction hn : links.length using Nat.strongRecOn
    generalizing budget floor previous operand links e left with
  | _ n ih =>
    subst hn
    cases links with
    | nil =>
      obtain ⟨rfl, rfl⟩ : operand = e ∧ [] = left := by simpa [gathered_nil] using h
      exact done floor operand [] (by simp)
    | cons link links =>
      obtain ⟨op, next⟩ := link
      rcases gathered_cons_eq_ok h with
        ⟨hfloor, rfl, rfl⟩ | ⟨-, -, rest, right, middle, rfl, hright, hrest⟩
      · exact done floor _ _ (by simpa using hfloor)
      · have hlength := length_gathered hright
        exact operate floor operand op next links right middle e left
          (ih links.length (by simp) hright rfl)
          (ih middle.length (by simpa using Nat.lt_succ_of_le hlength) hrest rfl)

/-- A group takes all operators that are strong enough. -/
theorem gathered_floor {budget floor : Nat} {previous : Option Operator} {operand e : Expr}
    {links left : List (Operator × Expr)}
    (h : gathered budget floor previous operand links = .ok (e, left)) :
    ∀ link ∈ left.head?, link.1.fixity.precedence < floor := by
  refine gathered_induct (P := fun floor _ _ _ left =>
    ∀ link ∈ left.head?, link.1.fixity.precedence < floor) ?_ ?_ h
  · intro floor operand links hhead
    exact hhead
  · intro floor operand op next links right left e rest _ ih
    exact ih

theorem group_eq (budget : Nat) (chain : Chain) :
    chain.group budget = (gathered budget 0 none chain.head chain.links).map (·.1) := by
  rw [group, gathered]
  cases gather budget 0 none chain.head chain.links <;> rfl

/-- A whole chain is grouped, and nothing of it is left. -/
theorem group_eq_ok {budget : Nat} {chain : Chain} {e : Expr} (h : chain.group budget = .ok e) :
    gathered budget 0 none chain.head chain.links = .ok (e, []) := by
  rw [group_eq] at h
  cases hgathered : gathered budget 0 none chain.head chain.links with
  | error d => simp [hgathered, Except.map] at h
  | ok r =>
    obtain ⟨e', left⟩ := r
    obtain rfl : e' = e := by simpa [hgathered, Except.map] using h
    cases left with
    | nil => rfl
    | cons link left => exact absurd (gathered_floor hgathered link rfl) (Nat.not_lt_zero _)

/-! ## Queues -/

/-- The operands and the operators of a chain. -/
def queues (chain : Chain) : Queues :=
  ⟨chain.head :: chain.links.map (·.2), chain.links.map (·.1)⟩

theorem queues_injective : Function.Injective queues := by
  intro chain chain' h
  have hzip (links : List (Operator × Expr)) :
      (links.map (·.1)).zip (links.map (·.2)) = links := by
    simpa [List.unzip_eq_map] using List.zip_unzip links
  obtain ⟨hoperands, hoperators⟩ := Queues.mk.inj h
  obtain ⟨hhead, hnext⟩ := List.cons.inj hoperands
  have hlinks : chain.links = chain'.links := by
    rw [← hzip chain.links, hoperators, hnext, hzip]
  obtain ⟨head, links⟩ := chain
  obtain ⟨head', links'⟩ := chain'
  obtain rfl : head = head' := hhead
  obtain rfl : links = links' := hlinks
  rfl

end Chain

namespace Queues

open Chain

/-- The queues of links, each of which is an operator and the operand after it. -/
def ofLinks (links : List (Operator × Expr)) : Queues := ⟨links.map (·.2), links.map (·.1)⟩

/-- As many operands as operators are links. -/
theorem exists_ofLinks {q : Queues} (h : q.operands.length = q.operators.length) :
    ∃ links, q = ofLinks links := by
  obtain ⟨operands, operators⟩ := q
  refine ⟨operators.zip operands, ?_⟩
  rw [ofLinks, List.map_snd_zip (Nat.le_of_eq h), List.map_fst_zip (Nat.le_of_eq h.symm)]

/-- Queues with one operand more than operators are those of a chain. -/
theorem exists_queues {q : Queues} (h : q.operands.length = q.operators.length + 1) :
    ∃ chain : Chain, q = chain.queues := by
  obtain ⟨_ | ⟨head, operands⟩, operators⟩ := q
  · simp at h
  · obtain ⟨links, hlinks⟩ := exists_ofLinks (q := ⟨operands, operators⟩) (Nat.succ.inj h)
    obtain ⟨rfl, rfl⟩ := Queues.mk.inj hlinks
    exact ⟨⟨head, links⟩, rfl⟩

theorem climb_cons {span : Span} {budget floor : Nat} {previous : Option Operator} {operand : Expr}
    {q : Queues} : climb span budget floor previous ⟨operand :: q.operands, q.operators⟩ =
      extend span budget floor previous operand q := by
  rw [climb]
  rfl

/-- Going on with the queues of links groups the links: the operand that an
operator needs is there. -/
theorem extend_ofLinks (span : Span) (budget floor : Nat) (previous : Option Operator)
    (operand : Expr) (links : List (Operator × Expr)) :
    (∃ e left hleft, gathered budget floor previous operand links = .ok (e, left) ∧
      extend span budget floor previous operand (ofLinks links) = .ok (e, ⟨ofLinks left, hleft⟩)) ∨
    ∃ d, gathered budget floor previous operand links = .error d ∧
      extend span budget floor previous operand (ofLinks links) = .error d := by
  induction hn : links.length using Nat.strongRecOn
    generalizing budget floor previous operand links with
  | _ n ih =>
    subst hn
    cases links with
    | nil => exact .inl ⟨operand, [], Nat.le_refl _, gathered_nil, extend.eq_1 ..⟩
    | cons link links =>
      obtain ⟨op, next⟩ := link
      have hqueues : ofLinks ((op, next) :: links) =
        ⟨next :: (ofLinks links).operands, op :: (ofLinks links).operators⟩ := rfl
      rw [hqueues, gathered_cons, extend.eq_def]
      simp only
      split
      · exact .inl ⟨operand, (op, next) :: links, Nat.le_refl _, rfl, rfl⟩
      · cases checkPrevious previous op with
        | error d => exact .inr ⟨d, rfl, rfl⟩
        | ok =>
          cases budget with
          | zero => exact .inr ⟨_, rfl, rfl⟩
          | succ budget =>
            have hright := ih links.length (by simp) budget (rightFloor op.fixity) (some op) next
              links rfl
            obtain ⟨right, left, hleft, hgathered, hextend⟩ | ⟨d, hgathered, hextend⟩ := hright
            · simp only [bind, Except.bind, climb_cons, hgathered, hextend]
              have hlength : left.length ≤ links.length := by simpa [ofLinks] using hleft
              obtain ⟨e, rest, hrest, hgathered', hextend'⟩ | ⟨d, hgathered', hextend'⟩ :=
                ih left.length (Nat.lt_succ_of_le hlength) (budget + 1) floor (some op)
                  (.operate op.name operand right) left rfl
              · refine .inl ⟨e, rest, Nat.le_succ_of_le (Nat.le_trans hrest hleft), hgathered', ?_⟩
                simp only [hextend']
              · exact .inr ⟨d, hgathered', by simp only [hextend']⟩
            · simp only [bind, Except.bind, climb_cons, hgathered, hextend]
              exact .inr ⟨d, rfl, rfl⟩

section

variable {budget floor : Nat} {previous : Option Operator} (span : Span) (chain : Chain)

/-- Climbing groups a chain, and leaves the queues of what the group leaves. -/
theorem climb_eq_ok {e : Expr} {left : List (Operator × Expr)}
    (h : gathered budget floor previous chain.head chain.links = .ok (e, left)) :
    ∃ hleft, climb span budget floor previous chain.queues = .ok (e, ⟨ofLinks left, hleft⟩) := by
  obtain ⟨e', left', hleft, hgathered, hextend⟩ | ⟨d, hgathered, -⟩ :=
    extend_ofLinks span budget floor previous chain.head chain.links
  · obtain ⟨rfl, rfl⟩ := Prod.mk.inj (Except.ok.inj (hgathered.symm.trans h))
    exact ⟨hleft, climb_cons.trans hextend⟩
  · cases hgathered.symm.trans h

theorem climb_eq_error {d : Diagnostic}
    (h : gathered budget floor previous chain.head chain.links = .error d) :
    climb span budget floor previous chain.queues = .error d := by
  obtain ⟨e, left, hleft, hgathered, -⟩ | ⟨d', hgathered, hextend⟩ :=
    extend_ofLinks span budget floor previous chain.head chain.links
  · cases hgathered.symm.trans h
  · obtain rfl := Except.error.inj (hgathered.symm.trans h)
    exact climb_cons.trans hextend

theorem group_queues : chain.queues.group budget span = chain.group budget := by
  rw [group, group_eq]
  cases h : gathered budget 0 none chain.head chain.links with
  | error d =>
    rw [climb_eq_error span chain h]
    rfl
  | ok r =>
    obtain ⟨hleft, hclimb⟩ := climb_eq_ok span chain h
    rw [hclimb]
    rfl

end

end Queues

/-! ## Pieces -/

/-- The pieces that `top` and others after it come to. -/
def Piece.following (top : Piece) (pieces : List Piece) : List Piece :=
  (pieces.foldl push [top]).reverse

namespace Piece

theorem foldl_push_cons (top : Piece) (stack pieces : List Piece) :
    pieces.foldl push (top :: stack) = pieces.foldl push [top] ++ stack := by
  induction pieces generalizing top stack with
  | nil => rfl
  | cons piece pieces ih =>
    cases top with
    | operator op =>
      simp only [List.foldl_cons, push]
      rw [ih, ih piece [.operator op], List.append_assoc]
      rfl
    | operand fn =>
      cases piece with
      | operator op =>
        simp only [List.foldl_cons, push]
        rw [ih, ih (.operator op) [.operand fn], List.append_assoc]
        rfl
      | operand arg =>
        simp only [List.foldl_cons, push]
        exact ih _ _

theorem applied_cons (piece : Piece) (pieces : List Piece) :
    applied (piece :: pieces) = following piece pieces := by
  cases piece <;> rfl

/-- Behind an operator nothing is applied. -/
theorem following_operator_cons (op : Operator) (piece : Piece) (pieces : List Piece) :
    following (.operator op) (piece :: pieces) = .operator op :: following piece pieces := by
  simp only [following, List.foldl_cons, push]
  rw [foldl_push_cons, List.reverse_append]
  rfl

theorem following_operand_operator (e : Expr) (op : Operator) (pieces : List Piece) :
    following (.operand e) (.operator op :: pieces) =
      .operand e :: following (.operator op) pieces := by
  simp only [following, List.foldl_cons, push]
  rw [foldl_push_cons, List.reverse_append]
  rfl

theorem exists_following_operator (op : Operator) (pieces : List Piece) :
    ∃ others, following (.operator op) pieces = .operator op :: others := by
  cases pieces with
  | nil => exact ⟨[], rfl⟩
  | cons piece pieces => exact ⟨_, following_operator_cons op piece pieces⟩

end Piece

namespace Queues

open Piece

/-- The operands and the operators of `q`, and behind them those of a chain. -/
def append (q : Queues) (chain : Chain) : Queues :=
  ⟨q.operands ++ chain.queues.operands, q.operators ++ chain.queues.operators⟩

/-- Where an operand is due, a run that starts with one is queued as a chain. -/
theorem enqueue_following {q : Queues} (h : q.operands.length = q.operators.length)
    (last : Option Operator) (e : Expr) (pieces : List Piece) :
    q.enqueue last (following (.operand e) pieces) = (Chain.build e pieces).map q.append := by
  fun_induction Chain.build e pieces generalizing q last with
  | case1 e => simp [following, enqueue, Except.map, append, Chain.queues]
  | case2 e arg pieces ih => exact ih h last
  | case3 e op => simp [following, push, enqueue, h, Except.map]
  | case4 e op op' pieces =>
    obtain ⟨others, hothers⟩ := exists_following_operator op' pieces
    rw [following_operand_operator, following_operator_cons, hothers]
    simp [enqueue, h, Except.map]
  | case5 e op next pieces ih =>
    rw [following_operand_operator, following_operator_cons]
    have hdue : (q.operands ++ [e]).length = (q.operators ++ [op]).length := by simp [h]
    have hrest := ih (q := ⟨q.operands ++ [e], q.operators ++ [op]⟩) hdue (some op)
    rw [enqueue, enqueue, if_neg (by simp [h]), hrest]
    cases Chain.build next pieces with
    | error d => rfl
    | ok chain => simp [append, Chain.queues, bind, Except.bind, Except.map]

/-- The queues of a run that holds anything are those of a chain. -/
theorem ofPieces_eq {pieces : List Piece} (h : pieces ≠ []) (span : Span) :
    ofPieces pieces = (Chain.ofPieces span pieces).map Chain.queues := by
  cases pieces with
  | nil => contradiction
  | cons piece pieces =>
    rw [ofPieces, applied_cons]
    cases piece with
    | operator op =>
      obtain ⟨others, hothers⟩ := exists_following_operator op pieces
      rw [hothers]
      rfl
    | operand e => exact enqueue_following rfl none e pieces

end Queues

/-- What a run means is what its chain means. -/
theorem groupPieces_eq (budget : Nat) (span : Span) (pieces : List Piece) :
    groupPieces budget span pieces = .raise (do (← Chain.ofPieces span pieces).group budget) := by
  rw [groupPieces]
  cases pieces with
  | nil =>
    refine congrArg Report.raise ?_
    change Queues.group budget span ⟨[], []⟩ = _
    rw [Queues.group, Queues.climb]
    rfl
  | cons piece pieces =>
    rw [Queues.ofPieces_eq (List.cons_ne_nil _ _) span]
    cases Chain.ofPieces span (piece :: pieces) with
    | error d => rfl
    | ok chain => exact congrArg Report.raise (Queues.group_queues span chain)

/-! ## Runs -/

/-- Resolve one atom of a run. -/
def resolvePiece (limit : Nat) (table : Table) (levels : Nat) (a : Concrete.Atom) : Report Piece :=
  match operator? table a with
  | some operator => pure (.operator operator)
  | none => .operand <$> resolveAtom limit table levels a

theorem resolveAtoms_cons {limit : Nat} {table : Table} {levels : Nat} {a : Concrete.Atom}
    {atoms : List Concrete.Atom} :
    resolveAtoms limit table levels (a :: atoms) = resolvePiece limit table levels a >>= fun piece =>
      resolveAtoms limit table levels atoms >>= fun pieces => pure (piece :: pieces) := by
  rw [resolveAtoms, resolvePiece]
  cases operator? table a <;> rfl

end Fixity

end Offside
