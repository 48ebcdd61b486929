-- SUMMARY: The groupings of a chain that respect the fixities: there is at most one, and an unambiguous chain has one.
import Offside.Proofs.Fixity.Chain

/-! # Groupings of a chain

A grouping is a binary tree over a chain: its operators and operands, from left
to right, are those of the chain. It respects the fixities if what stands
directly below an operator binds tighter, or as tight and both group towards
that side. A chain has at most one such grouping (`Respects.unique`), and an
unambiguous chain has one (`exists_respects`). -/

namespace Offside

namespace Fixity

/-! ## Chains -/

/-- The operators of a chain. -/
def Chain.operators (chain : Chain) : List Operator := chain.links.map (·.1)

/-- Two operators of a chain meet if they are equally strong and all operators
between them are stronger. -/
structure Meets (ops : List Operator) (first : Operator) (between : List Operator)
    (second : Operator) : Prop where
  stretch : first :: (between ++ [second]) <:+: ops
  level : first.fixity.precedence = second.fixity.precedence
  stronger : ∀ op ∈ between, first.fixity.precedence < op.fixity.precedence

/-- Operators that meet agree on a direction. -/
def Unambiguous (ops : List Operator) : Prop :=
  ∀ first between second, Meets ops first between second →
    first.fixity.assoc = second.fixity.assoc ∧ first.fixity.assoc ≠ .none

/-- Two operators may meet: they are not equally strong, or agree on a
direction. -/
def Operator.Agrees (first second : Operator) : Prop :=
  first.fixity.precedence = second.fixity.precedence →
    first.fixity.assoc = second.fixity.assoc ∧ first.fixity.assoc ≠ .none

/-- `below` may stand directly below `op` on the given side: it is stronger, or
as strong and both group towards that side. -/
def Operator.Allows (side : Associativity) (op below : Operator) : Prop :=
  op.fixity.precedence < below.fixity.precedence ∨
    op.fixity.precedence = below.fixity.precedence ∧
      op.fixity.assoc = side ∧ below.fixity.assoc = side

theorem Meets.mono {ops ops' : List Operator} {first second : Operator} {between : List Operator}
    (h : Meets ops first between second) (hops : ops <:+: ops') :
    Meets ops' first between second :=
  ⟨h.stretch.trans hops, h.level, h.stronger⟩

theorem Unambiguous.mono {ops ops' : List Operator} (h : Unambiguous ops') (hops : ops <:+: ops') :
    Unambiguous ops :=
  fun first between second hmeets => h first between second (hmeets.mono hops)

/-- The only operator that another can meet is the first after it that is not
stronger. -/
theorem unambiguous_cons_iff {op : Operator} {ops : List Operator} :
    Unambiguous (op :: ops) ↔
      (∀ o ∈ ops.find? (fun o => o.fixity.precedence ≤ op.fixity.precedence), op.Agrees o) ∧
        Unambiguous ops := by
  constructor
  · refine fun h => ⟨fun o ho hlevel => ?_, h.mono (List.suffix_cons _ _).isInfix⟩
    obtain ⟨-, between, after, rfl, hbetween⟩ := List.find?_eq_some_iff_append.1 ho
    refine h op between o ⟨⟨[], after, by simp⟩, hlevel, fun o' ho' => ?_⟩
    simpa using hbetween o' ho'
  · rintro ⟨hfirst, hothers⟩ first between second ⟨hstretch, hlevel, hstronger⟩
    rcases List.infix_cons_iff.1 hstretch with ⟨after, hfront⟩ | hwithin
    · obtain ⟨rfl, hops⟩ := List.cons.inj hfront
      refine hfirst second (List.find?_eq_some_iff_append.2 ⟨by simp [hlevel], between, after, ?_, ?_⟩)
        hlevel
      · simp [← hops]
      · simpa using hstronger
    · exact hothers first between second ⟨hwithin, hlevel, hstronger⟩

instance (first second : Operator) : Decidable (first.Agrees second) :=
  inferInstanceAs (Decidable (_ → _ ∧ _))

instance decidableUnambiguous : (ops : List Operator) → Decidable (Unambiguous ops)
  | [] => isTrue fun _ _ _ h => by simpa using h.stretch
  | _ :: ops =>
    have := decidableUnambiguous ops
    decidable_of_iff' _ unambiguous_cons_iff

namespace Operator.Allows

variable {side side' : Associativity} {op below other : Operator}

theorem le (h : op.Allows side below) : op.fixity.precedence ≤ below.fixity.precedence := by
  rcases h with hlt | ⟨heq, -⟩
  · exact Nat.le_of_lt hlt
  · exact Nat.le_of_eq heq

/-- What may stand below on either side may stand below further up. -/
theorem trans (h : op.Allows side below) (h' : below.Allows side' other) : op.Allows side other := by
  rcases h with hlt | ⟨heq, hop, hbelow⟩
  · exact .inl (Nat.lt_of_lt_of_le hlt h'.le)
  · rcases h' with hlt | ⟨heq', hbelow', hother⟩
    · exact .inl (by omega)
    · refine .inr ⟨heq.trans heq', hop, ?_⟩
      rw [hother, ← hbelow', hbelow]

theorem assoc_eq (h : op.Allows side below)
    (hlevel : op.fixity.precedence = below.fixity.precedence) :
    op.fixity.assoc = side ∧ below.fixity.assoc = side := by
  rcases h with hlt | ⟨-, hsides⟩
  · omega
  · exact hsides

/-- Of two operators only one can stand above the other. -/
theorem asymm (h : op.Allows .left below) (h' : below.Allows .right op) : False := by
  have hle := h'.le
  rcases h with hlt | ⟨heq, hleft, -⟩
  · omega
  · rcases h' with hlt | ⟨-, -, hright⟩
    · omega
    · simp [hleft] at hright

end Operator.Allows

/-! ## Groupings -/

/-- A binary tree with operators inside and operands at the leaves. -/
inductive Grouping where
  | operand (expr : Expr)
  | operation (op : Operator) (left right : Grouping)

namespace Grouping

/-- The leftmost operand. -/
def head : Grouping → Expr
  | operand e => e
  | operation _ left _ => left.head

/-- The operators from left to right, each with the operand after it. -/
def links : Grouping → List (Operator × Expr)
  | operand _ => []
  | operation op left right => left.links ++ (op, right.head) :: right.links

/-- The chain that is grouped. -/
def chain (t : Grouping) : Chain := ⟨t.head, t.links⟩

/-- The operators from left to right. -/
def operators (t : Grouping) : List Operator := t.links.map (·.1)

/-- The operator above all others. -/
def root? : Grouping → Option Operator
  | operand _ => none
  | operation op _ _ => some op

/-- The expression that a grouping means. -/
def expr : Grouping → Expr
  | operand e => e
  | operation op left right => .operate op.name left.expr right.expr

/-- The greatest number of right edges on a path from the root to an operand. -/
def rightEdges : Grouping → Nat
  | operand _ => 0
  | operation _ left right => max left.rightEdges (right.rightEdges + 1)

/-- What stands directly below an operator may stand there. -/
inductive Respects : Grouping → Prop
  | operand {e} : Respects (operand e)
  | operation {op left right} (before : ∀ o ∈ left.root?, op.Allows .left o)
      (after : ∀ o ∈ right.root?, op.Allows .right o) (first : Respects left)
      (second : Respects right) : Respects (operation op left right)

@[simp] theorem operators_operand (e : Expr) : (operand e).operators = [] := rfl

@[simp] theorem operators_operation (op : Operator) (left right : Grouping) :
    (operation op left right).operators = left.operators ++ op :: right.operators := by
  simp [operators, links]

theorem mem_operators_of_root? {t : Grouping} {op : Operator} (h : op ∈ t.root?) :
    op ∈ t.operators := by
  cases t with
  | operand e => simp [root?] at h
  | operation o left right =>
    obtain rfl : o = op := by simpa [root?] using h
    simp

/-- All operators below one may stand below it. -/
theorem Respects.allows {t : Grouping} (h : t.Respects) {side : Associativity} {op : Operator}
    (hroot : ∀ o ∈ t.root?, op.Allows side o) : ∀ o ∈ t.operators, op.Allows side o := by
  induction h generalizing side op with
  | operand => simp
  | @operation root left right before after first second ihl ihr =>
    have hop : op.Allows side root := hroot root rfl
    rw [operators_operation, List.forall_mem_append, List.forall_mem_cons]
    exact ⟨fun o ho => hop.trans (ihl before o ho), hop, fun o ho => hop.trans (ihr after o ho)⟩

/-- The root of one grouping does not stand left of the root of another: each
would be below the other. -/
theorem Respects.length_le {op op' : Operator} {left right left' right' : Grouping}
    (h : (Grouping.operation op left right).Respects)
    (h' : (Grouping.operation op' left' right').Respects)
    (hlinks : (Grouping.operation op left right).links =
      (Grouping.operation op' left' right').links) :
    left'.links.length ≤ left.links.length := by
  cases h with
  | operation _ after _ second =>
    cases h' with
    | operation before' _ first' _ =>
      rcases List.append_eq_append_iff.1 hlinks with ⟨mid, hleft, hright⟩ | ⟨mid, hleft, -⟩
      · cases mid with
        | nil => simp [hleft]
        | cons link mid =>
          obtain ⟨rfl, hrest⟩ := List.cons.inj hright
          have hop : op ∈ left'.operators := by simp [operators, hleft]
          have hop' : op' ∈ right.operators := by simp [operators, hrest]
          exact ((first'.allows before' op hop).asymm (second.allows after op' hop')).elim
      · simp [hleft]

/-- A chain has at most one grouping that respects the fixities. -/
theorem Respects.unique {t t' : Grouping} (h : t.Respects) (h' : t'.Respects)
    (hchain : t.chain = t'.chain) : t = t' := by
  induction t generalizing t' with
  | operand e =>
    cases t' with
    | operand e' => simpa [chain, head, links] using hchain
    | operation => simp [chain, links] at hchain
  | operation op left right ihl ihr =>
    cases t' with
    | operand e' => simp [chain, links] at hchain
    | operation op' left' right' =>
      obtain ⟨hhead, hlinks⟩ := Chain.mk.inj hchain
      have hlength := Nat.le_antisymm (h'.length_le h hlinks.symm) (h.length_le h' hlinks)
      obtain ⟨hleft, hright⟩ := List.append_inj hlinks hlength
      simp only [List.cons.injEq, Prod.mk.injEq] at hright
      obtain ⟨⟨rfl, hnext⟩, hrest⟩ := hright
      cases h with
      | operation _ _ first second =>
        cases h' with
        | operation _ _ first' second' =>
          rw [ihl first first' (by simpa [chain, head, hleft] using hhead),
            ihr second second' (by simp [chain, hnext, hrest])]

/-! ## Existence -/

end Grouping

/-- An operator meets the first of the operators after it that is as strong, if
none of them is weaker. -/
theorem exists_meets {first op : Operator} {rest : List Operator}
    (hrest : ∀ o ∈ rest, first.fixity.precedence ≤ o.fixity.precedence) (hop : op ∈ rest)
    (hlevel : first.fixity.precedence = op.fixity.precedence) :
    ∃ between second, second ∈ rest ∧ Meets (first :: rest) first between second := by
  have hfind : (rest.find? fun o => first.fixity.precedence = o.fixity.precedence).isSome = true :=
    List.find?_isSome.2 ⟨op, hop, decide_eq_true hlevel⟩
  obtain ⟨second, hsecond⟩ := Option.isSome_iff_exists.1 hfind
  obtain ⟨hsame, between, after, rfl, hbetween⟩ := List.find?_eq_some_iff_append.1 hsecond
  refine ⟨between, second, by simp, ?_, of_decide_eq_true hsame, fun o ho => ?_⟩
  · exact List.IsPrefix.isInfix ⟨after, by simp⟩
  · have hle := hrest o (List.mem_append_left _ ho)
    have hne := hbetween o ho
    simp only [Bool.not_eq_true', decide_eq_false_iff_not] at hne
    omega

/-- In an unambiguous chain one operator may stand above all others. -/
theorem Unambiguous.exists_root {ops : List Operator} (h : Unambiguous ops) (hne : ops ≠ []) :
    ∃ before op after, ops = before ++ op :: after ∧ (∀ o ∈ before, op.Allows .left o) ∧
      ∀ o ∈ after, op.Allows .right o := by
  induction ops with
  | nil => contradiction
  | cons first rest ih =>
    by_cases hrest : rest = []
    · exact ⟨[], first, [], by simp [hrest], by simp, by simp⟩
    obtain ⟨before, op, after, hops, hbefore, hafter⟩ :=
      ih (h.mono (List.suffix_cons _ _).isInfix) hrest
    have hop : op ∈ rest := by simp [hops]
    -- Operators of the rest that are as strong as its root go the same way as the root.
    have hall : ∀ o ∈ rest, op.fixity.precedence ≤ o.fixity.precedence ∧
        (op.fixity.precedence = o.fixity.precedence → op.fixity.assoc = o.fixity.assoc) := by
      have hsame : ∀ {side o}, op.Allows side o → op.fixity.precedence = o.fixity.precedence →
          op.fixity.assoc = o.fixity.assoc := by
        intro side o ho hlevel
        obtain ⟨hop, ho⟩ := ho.assoc_eq hlevel
        exact hop.trans ho.symm
      rw [hops, List.forall_mem_append, List.forall_mem_cons]
      exact ⟨fun o ho => ⟨(hbefore o ho).le, hsame (hbefore o ho)⟩, ⟨Nat.le_refl _, fun _ => rfl⟩,
        fun o ho => ⟨(hafter o ho).le, hsame (hafter o ho)⟩⟩
    rcases Nat.lt_trichotomy first.fixity.precedence op.fixity.precedence with hlt | heq | hgt
    · exact ⟨[], first, rest, rfl, by simp, fun o ho => .inl (Nat.lt_of_lt_of_le hlt (hall o ho).1)⟩
    · obtain ⟨between, second, hsecond, hmeets⟩ :=
        exists_meets (fun o ho => heq ▸ (hall o ho).1) hop heq
      obtain ⟨hagree, hsome⟩ := h first between second hmeets
      have hassoc : first.fixity.assoc = op.fixity.assoc :=
        hagree.trans ((hall second hsecond).2 (heq.symm.trans hmeets.level)).symm
      cases hside : op.fixity.assoc with
      | left =>
        refine ⟨first :: before, op, after, by simp [hops], ?_, hafter⟩
        exact List.forall_mem_cons.2 ⟨.inr ⟨heq.symm, hside, hassoc.trans hside⟩, hbefore⟩
      | right =>
        have hfirst : first.Allows .right op := .inr ⟨heq, hassoc.trans hside, hside⟩
        refine ⟨[], first, rest, rfl, by simp, ?_⟩
        rw [hops, List.forall_mem_append, List.forall_mem_cons]
        refine ⟨fun o ho => ?_, hfirst, fun o ho => hfirst.trans (hafter o ho)⟩
        rcases hbefore o ho with hlt | ⟨-, hleft, -⟩
        · exact .inl (heq ▸ hlt)
        · simp [hside] at hleft
      | none => exact absurd (hassoc.trans hside) hsome
    · refine ⟨first :: before, op, after, by simp [hops], ?_, hafter⟩
      exact List.forall_mem_cons.2 ⟨.inl hgt, hbefore⟩

/-- An unambiguous chain has a grouping that respects the fixities. -/
theorem exists_respects {chain : Chain} (h : Unambiguous chain.operators) :
    ∃ t : Grouping, t.chain = chain ∧ t.Respects := by
  induction hn : chain.links.length using Nat.strongRecOn generalizing chain with
  | _ n ih =>
    obtain ⟨head, links⟩ := chain
    by_cases hne : links = []
    · subst hne
      exact ⟨.operand head, rfl, .operand⟩
    obtain ⟨before, op, after, hops, hbefore, hafter⟩ := h.exists_root (by simpa [Chain.operators])
    -- The chain is split at the operator that is to stand above the others.
    obtain ⟨first, others, rfl, rfl, hothers⟩ := List.map_eq_append_iff.1 hops
    obtain ⟨⟨op, next⟩, second, rfl, rfl, rfl⟩ := List.map_eq_cons_iff.1 hothers
    have hleft : Unambiguous (Chain.mk head first).operators :=
      h.mono ⟨[], op :: second.map (·.1), by simp [Chain.operators]⟩
    have hright : Unambiguous (Chain.mk next second).operators :=
      h.mono ⟨first.map (·.1) ++ [op], [], by simp [Chain.operators]⟩
    simp only [List.length_append, List.length_cons] at hn
    obtain ⟨left, hl, respectsl⟩ := ih first.length (by omega) hleft rfl
    obtain ⟨right, hr, respectsr⟩ := ih second.length (by omega) hright rfl
    obtain ⟨hlhead, hllinks⟩ := Chain.mk.inj hl
    obtain ⟨hrhead, hrlinks⟩ := Chain.mk.inj hr
    refine ⟨.operation op left right, ?_, .operation (fun o ho => hbefore o ?_)
      (fun o ho => hafter o ?_) respectsl respectsr⟩
    · simp [Grouping.chain, Grouping.head, Grouping.links, hlhead, hllinks, hrhead, hrlinks]
    · simpa [Grouping.operators, hllinks] using Grouping.mem_operators_of_root? ho
    · simpa [Grouping.operators, hrlinks] using Grouping.mem_operators_of_root? ho

end Fixity

end Offside
