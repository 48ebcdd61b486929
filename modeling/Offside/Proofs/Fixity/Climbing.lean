-- SUMMARY: What precedence climbing makes of a chain, and which chains it rejects.
import Offside.Proofs.Fixity.Grouping

/-! # Climbing

Climbing compares an operator with the last one before it on its level, or else
with the one whose right operand it is in. `Grouping.Climbed` is what it can make
of a chain, and more than what respects the fixities: after an operator that
groups to the right and a stronger one, an operator as strong as the first may
group in any way. So two operators that clash are found only if climbing compares
them (`Compared`), and then always: `Chain.group_rejected_iff`. -/

namespace Offside

namespace Fixity

/-! ## Climbing -/

theorem Operator.Allows.agrees {op below : Operator} {side : Associativity}
    (h : op.Allows side below) (hside : side ≠ .none) : op.Agrees below := by
  intro hlevel
  obtain ⟨hop, hbelow⟩ := h.assoc_eq hlevel
  exact ⟨hop.trans hbelow.symm, hop ▸ hside⟩

theorem Operator.Agrees.symm {first second : Operator} (h : first.Agrees second) :
    second.Agrees first := by
  intro hlevel
  obtain ⟨hsame, hsome⟩ := h hlevel.symm
  exact ⟨hsame.symm, hsame ▸ hsome⟩

/-- Two operators clash: they go different ways, or no way. -/
def Operator.Clashes (first second : Operator) : Prop :=
  first.fixity.assoc ≠ second.fixity.assoc ∨
    first.fixity.assoc = .none ∧ second.fixity.assoc = .none

theorem Operator.clashes_iff {first second : Operator}
    (hlevel : first.fixity.precedence = second.fixity.precedence) :
    first.Clashes second ↔ ¬ first.Agrees second := by
  by_cases hsame : first.fixity.assoc = second.fixity.assoc <;>
    simp [Operator.Clashes, Operator.Agrees, hlevel, hsame]

theorem checkMeeting_eq_ok_iff {first second : Operator} :
    checkMeeting first second = .ok () ↔ first.Agrees second := by
  unfold checkMeeting Operator.Agrees
  split
  · simp_all
  · split
    · simp_all
    · split <;> simp_all

theorem checkMeeting_eq_error {first second : Operator} {d : Diagnostic}
    (h : checkMeeting first second = .error d) :
    first.fixity.precedence = second.fixity.precedence ∧ first.Clashes second ∧
      d.problem.stage = .fixity := by
  unfold checkMeeting at h
  split at h
  · cases h
  · rename_i hlevel
    refine ⟨Decidable.not_not.1 hlevel, ?_⟩
    split at h
    · rename_i hsame
      exact ⟨.inl hsame, Except.error.inj h ▸ rfl⟩
    · rename_i hsame
      split at h
      · rename_i hnone
        exact ⟨.inr ⟨(Decidable.not_not.1 hsame).trans hnone, hnone⟩, Except.error.inj h ▸ rfl⟩
      · cases h

theorem precedence_le_rightFloor (f : Fixity) : f.precedence ≤ rightFloor f := by
  unfold rightFloor
  split <;> omega

theorem rightFloor_le (f : Fixity) : rightFloor f ≤ f.precedence + 1 := by
  unfold rightFloor
  split <;> omega

open Chain

theorem Operator.Allows.rightFloor_le {op below : Operator} (h : op.Allows .right below) :
    rightFloor op.fixity ≤ below.fixity.precedence := by
  rcases h with hlt | ⟨heq, hop, -⟩
  · exact Nat.le_trans (Fixity.rightFloor_le _) hlt
  · simp [rightFloor, hop, heq]

theorem Operator.Allows.lt_rightFloor {op below : Operator} (h : op.Allows .left below) :
    op.fixity.precedence < rightFloor below.fixity := by
  rcases h with hlt | ⟨heq, -, hbelow⟩
  · exact Nat.lt_of_lt_of_le hlt (precedence_le_rightFloor _)
  · simp [rightFloor, hbelow, heq]

namespace Grouping

/-- What climbing makes: it compares an operator with the last one before it on
its level, or else with the one whose right operand it is in. -/
inductive Climbed : Grouping → Prop
  | operand {e} : Climbed (operand e)
  | operation {op left right} (before : ∀ o ∈ left.root?, op.Allows .left o)
      (after : ∀ o ∈ right.root?, rightFloor op.fixity ≤ o.fixity.precedence)
      (meeting : ∀ o ∈ right.operators.head?, op.Agrees o) (first : Climbed left)
      (second : Climbed right) : Climbed (operation op left right)

theorem Respects.climbed {t : Grouping} (h : t.Respects) : t.Climbed := by
  induction h with
  | operand => exact .operand
  | operation before after first second ihl ihr =>
    refine .operation before (fun o ho => (after o ho).rightFloor_le) (fun o ho => ?_) ihl ihr
    exact (second.allows after o (List.mem_of_mem_head? ho)).agrees (by decide)

/-- The weakest operator is the root. -/
theorem Climbed.le_precedence {t : Grouping} (h : t.Climbed) {floor : Nat}
    (hroot : ∀ o ∈ t.root?, floor ≤ o.fixity.precedence) :
    ∀ o ∈ t.operators, floor ≤ o.fixity.precedence := by
  induction h generalizing floor with
  | operand => simp
  | @operation op left right before after meeting first second ihl ihr =>
    have hop : floor ≤ op.fixity.precedence := hroot op rfl
    rw [operators_operation, List.forall_mem_append, List.forall_mem_cons]
    refine ⟨ihl fun o ho => Nat.le_trans hop (before o ho).le, hop, ihr fun o ho => ?_⟩
    exact Nat.le_trans hop (Nat.le_trans (precedence_le_rightFloor _) (after o ho))

/-- Climbing at `floor` after the operator `previous` takes all of the grouping
and stops before `rest`. -/
structure Fits (t : Grouping) (floor : Nat) (previous : Option Operator)
    (rest : List (Operator × Expr)) : Prop where
  climbed : t.Climbed
  reach : ∀ o ∈ t.operators, floor ≤ o.fixity.precedence
  meeting : ∀ o ∈ previous, ∀ o' ∈ t.operators.head?, o.Agrees o'
  stop : ∀ o ∈ t.root?, ∀ link ∈ rest.head?, link.1.fixity.precedence < rightFloor o.fixity

namespace Fits

variable {op : Operator} {left right : Grouping} {budget floor : Nat} {previous : Option Operator}
  {rest : List (Operator × Expr)}

theorem left_operand (h : Fits (operation op left right) floor previous rest) :
    Fits left floor previous ((op, right.head) :: (right.links ++ rest)) := by
  cases h.climbed with
  | operation before after meeting first second =>
    refine ⟨first, fun o ho => h.reach o (by simp [ho]), fun o ho o' ho' => h.meeting o ho o' ?_, ?_⟩
    · rw [operators_operation, List.head?_append, Option.mem_def.1 ho']
      rfl
    · intro o ho link hlink
      obtain rfl : (op, right.head) = link := by simpa using hlink
      exact (before o ho).lt_rightFloor

theorem right_operand (h : Fits (operation op left right) floor previous rest) :
    Fits right (rightFloor op.fixity) (some op) rest := by
  cases h.climbed with
  | operation before after meeting first second =>
    refine ⟨second, second.le_precedence after, by simpa using meeting, fun o ho link hlink => ?_⟩
    calc link.1.fixity.precedence < rightFloor op.fixity := h.stop op rfl link hlink
      _ ≤ o.fixity.precedence := after o ho
      _ ≤ rightFloor o.fixity := precedence_le_rightFloor _

/-- The root agrees with the operator before it on its level. -/
theorem checkPrevious_eq_ok (h : Fits (operation op left right) floor previous rest) :
    checkPrevious (left.root?.or previous) op = .ok () := by
  cases h.climbed with
  | operation before after meeting first second =>
    cases left with
    | operand e =>
      cases previous with
      | none => rfl
      | some previous => exact checkMeeting_eq_ok_iff.2 (h.meeting previous rfl op rfl)
    | operation o _ _ =>
      exact checkMeeting_eq_ok_iff.2 ((before o rfl).agrees (by decide)).symm

theorem gathered_root (h : Fits (operation op left right) floor previous rest) {operand : Expr} :
    gathered budget floor (left.root?.or previous) operand
        ((op, right.head) :: (right.links ++ rest)) =
      match budget with
      | 0 => .error ((Problem.chainTooDeep op.name.text).at op.name.span)
      | budget + 1 =>
        gathered budget (rightFloor op.fixity) (some op) right.head (right.links ++ rest) >>=
          fun r => gathered (budget + 1) floor (some op) (.operate op.name operand r.1) r.2 := by
  have hfloor : floor ≤ op.fixity.precedence := h.reach op (by simp)
  rw [gathered_cons, if_neg (Nat.not_lt.2 hfloor), h.checkPrevious_eq_ok]
  rfl

end Fits

end Grouping

theorem gathered_of_lt {budget floor : Nat} {previous : Option Operator} {operand : Expr}
    {links : List (Operator × Expr)}
    (h : ∀ link ∈ links.head?, link.1.fixity.precedence < floor) :
    gathered budget floor previous operand links = .ok (operand, links) := by
  cases links with
  | nil => exact gathered_nil
  | cons link links => rw [gathered_cons, if_pos (h link rfl)]

namespace Grouping

/-- With enough budget climbing groups a chain as the grouping does, and goes on
after it. -/
theorem Fits.gathered_eq {t : Grouping} {budget floor : Nat} {previous : Option Operator}
    {rest : List (Operator × Expr)} (h : t.Fits floor previous rest)
    (hbudget : t.rightEdges ≤ budget) :
    gathered budget floor previous t.head (t.links ++ rest) =
      gathered budget floor (t.root?.or previous) t.expr rest := by
  induction t generalizing budget floor previous rest with
  | operand e => rfl
  | operation op left right ihl ihr =>
    obtain ⟨hleft, hright⟩ := Nat.max_le.1 hbudget
    obtain ⟨budget, rfl⟩ := Nat.exists_eq_add_of_le' (Nat.lt_of_lt_of_le (Nat.succ_pos _) hright)
    calc gathered (budget + 1) floor previous left.head
          (left.links ++ (op, right.head) :: right.links ++ rest)
      _ = gathered (budget + 1) floor (left.root?.or previous) left.expr
          ((op, right.head) :: (right.links ++ rest)) := by
        rw [List.append_assoc, List.cons_append, ihl h.left_operand hleft]
      _ = gathered (budget + 1) floor (some op) (.operate op.name left.expr right.expr) rest := by
        rw [h.gathered_root]
        simp only
        rw [ihr h.right_operand (Nat.le_of_succ_le_succ hright), gathered_of_lt (h.stop op rfl)]
        rfl

/-- With less budget climbing finds that the chain nests too deep. -/
theorem Fits.gathered_eq_error {t : Grouping} {budget floor : Nat} {previous : Option Operator}
    {rest : List (Operator × Expr)} (h : t.Fits floor previous rest)
    (hbudget : budget < t.rightEdges) :
    ∃ op ∈ t.operators, gathered budget floor previous t.head (t.links ++ rest) =
      .error ((Problem.chainTooDeep op.name.text).at op.name.span) := by
  induction t generalizing budget floor previous rest with
  | operand e => simp [rightEdges] at hbudget
  | operation op left right ihl ihr =>
    simp only [head, links, List.append_assoc, List.cons_append]
    by_cases hleft : budget < left.rightEdges
    · obtain ⟨o, ho, herror⟩ := ihl h.left_operand hleft
      exact ⟨o, by simp [ho], herror⟩
    rw [h.left_operand.gathered_eq (Nat.not_lt.1 hleft), h.gathered_root]
    cases budget with
    | zero => exact ⟨op, by simp, rfl⟩
    | succ budget =>
      have hright : budget < right.rightEdges := by
        simp only [rightEdges] at hbudget
        omega
      obtain ⟨o, ho, herror⟩ := ihr h.right_operand hright
      exact ⟨o, by simp [ho], by simp [herror, bind, Except.bind]⟩

/-- Every level starts with an operand alone. -/
theorem Fits.start (e : Expr) (floor : Nat) (previous : Option Operator)
    (rest : List (Operator × Expr)) : (operand e).Fits floor previous rest :=
  ⟨.operand, by simp, by simp, by simp [root?]⟩

/-- A whole chain is climbed from the lowest floor, with nothing before it. -/
theorem Climbed.fits {t : Grouping} (h : t.Climbed) : t.Fits 0 none [] :=
  ⟨h, fun _ _ => Nat.zero_le _, by simp, by simp⟩

/-- The operator before another on its level may stand below it on the left. -/
theorem allows_of_checkPrevious {op before : Operator}
    (hstop : op.fixity.precedence < rightFloor before.fixity)
    (hcheck : checkPrevious (some before) op = .ok ()) : op.Allows .left before := by
  rcases Nat.lt_trichotomy op.fixity.precedence before.fixity.precedence with hlt | heq | hgt
  · exact .inl hlt
  · obtain ⟨hsame, hsome⟩ := checkMeeting_eq_ok_iff.1 hcheck heq.symm
    have hleft : before.fixity.assoc = .left := by
      cases hassoc : before.fixity.assoc with
      | left => rfl
      | right => simp [rightFloor, hassoc, heq] at hstop
      | none => exact absurd hassoc hsome
    exact .inr ⟨heq, hsame ▸ hleft, hleft⟩
  · exact absurd (Nat.lt_of_lt_of_le hstop (rightFloor_le _)) (by omega)

/-- A level takes one operator more, with its right operand. -/
theorem Fits.push {t right : Grouping} {op : Operator} {floor : Nat} {previous : Option Operator}
    {links left : List (Operator × Expr)} {next : Expr}
    (h : t.Fits floor previous ((op, next) :: links)) (hfloor : floor ≤ op.fixity.precedence)
    (hcheck : checkPrevious (t.root?.or previous) op = .ok ())
    (hright : right.Fits (rightFloor op.fixity) (some op) left)
    (hstop : ∀ link ∈ left.head?, link.1.fixity.precedence < rightFloor op.fixity) :
    (Grouping.operation op t right).Fits floor previous left where
  climbed := by
    refine .operation (fun o ho => ?_) (fun o ho => hright.reach o (mem_operators_of_root? ho))
      (hright.meeting op rfl) h.climbed hright.climbed
    rw [Option.mem_def.1 ho] at hcheck
    exact allows_of_checkPrevious (h.stop o ho (op, next) rfl) hcheck
  reach := by
    rw [operators_operation, List.forall_mem_append, List.forall_mem_cons]
    refine ⟨h.reach, hfloor, fun o ho => ?_⟩
    exact Nat.le_trans hfloor (Nat.le_trans (precedence_le_rightFloor _) (hright.reach o ho))
  meeting := by
    intro o ho o' ho'
    cases t with
    | operand e =>
      obtain rfl : op = o' := by simpa using ho'
      rw [Option.mem_def.1 ho] at hcheck
      exact checkMeeting_eq_ok_iff.1 hcheck
    | operation root before after => exact h.meeting o ho o' (by simpa using ho')
  stop := by
    intro o ho
    obtain rfl : op = o := by simpa [root?] using ho
    exact hstop

/-- The expression that a level has come to is a grouping of what the level has
taken. -/
theorem Fits.exists_of_gathered {t : Grouping} {budget floor : Nat} {previous : Option Operator}
    {links left : List (Operator × Expr)} {e : Expr} (h : t.Fits floor previous links)
    (hedges : t.rightEdges ≤ budget)
    (hgathered : gathered budget floor (t.root?.or previous) t.expr links = .ok (e, left)) :
    ∃ t' : Grouping, t'.Fits floor previous left ∧ t'.rightEdges ≤ budget ∧ t'.expr = e ∧
      t'.head = t.head ∧ t'.links ++ left = t.links ++ links := by
  induction hn : links.length using Nat.strongRecOn
    generalizing t budget floor previous links left e with
  | _ n ih =>
    subst hn
    cases links with
    | nil =>
      obtain ⟨rfl, rfl⟩ : t.expr = e ∧ [] = left := by simpa [gathered_nil] using hgathered
      exact ⟨t, h, hedges, rfl, rfl, rfl⟩
    | cons link links =>
      obtain ⟨op, next⟩ := link
      rcases gathered_cons_eq_ok hgathered with
        ⟨-, rfl, rfl⟩ | ⟨hfloor, hcheck, rest, r, middle, rfl, hright, hrest⟩
      · exact ⟨t, h, hedges, rfl, rfl, rfl⟩
      · obtain ⟨right, hfits, hrightEdges, rfl, rfl, hlinks⟩ :=
          ih links.length (by simp) (Fits.start next _ _ _) (Nat.zero_le _) hright rfl
        have hlength : middle.length ≤ links.length := length_gathered hright
        obtain ⟨t', hfits', hedges', hexpr, hhead, hlinks'⟩ :=
          ih middle.length (Nat.lt_succ_of_le hlength)
            (h.push hfloor hcheck hfits (gathered_floor hright))
            (Nat.max_le.2 ⟨hedges, Nat.succ_le_succ hrightEdges⟩) hrest rfl
        refine ⟨t', hfits', hedges', hexpr, hhead, ?_⟩
        rw [hlinks', Grouping.links, List.append_assoc, List.cons_append, hlinks]
        rfl

end Grouping

/-! ## Clashes -/

/-- Climbing compares two operators that meet if the first does not group to the
right, or if they stand next to each other. -/
structure Compared (ops : List Operator) (first : Operator) (between : List Operator)
    (second : Operator) : Prop extends Meets ops first between second where
  near : first.fixity.assoc = .right → between = []

theorem Compared.mono {ops ops' : List Operator} {first second : Operator}
    {between : List Operator} (h : Compared ops first between second) (hops : ops <:+: ops') :
    Compared ops' first between second :=
  ⟨h.toMeets.mono hops, h.near⟩

namespace Grouping

/-- All operators left of one that may stand there may stand there. -/
theorem Climbed.allows_left {t : Grouping} (h : t.Climbed) {op : Operator}
    (hroot : ∀ o ∈ t.root?, op.Allows .left o) : ∀ o ∈ t.operators, op.Allows .left o := by
  induction h generalizing op with
  | operand => simp
  | @operation root left right before after meeting first second ihl ihr =>
    have hop : op.Allows .left root := hroot root rfl
    rw [operators_operation, List.forall_mem_append, List.forall_mem_cons]
    refine ⟨fun o ho => hop.trans (ihl before o ho), hop, fun o ho => .inl ?_⟩
    exact Nat.lt_of_lt_of_le hop.lt_rightFloor (second.le_precedence after o ho)

end Grouping

/-- A stretch of two lists with a member between them lies in one of them, or
holds that member. -/
theorem infix_append_cons {α : Type} {xs before after : List α} {a : α}
    (h : xs <:+: before ++ a :: after) :
    xs <:+: before ∨ xs <:+: after ∨
      ∃ front back, xs = front ++ a :: back ∧ front <:+ before ∧ back <+: after := by
  obtain ⟨pre, post, h⟩ := h
  rw [List.append_assoc] at h
  rcases List.append_eq_append_iff.1 h with ⟨front, rfl, hxs⟩ | ⟨mid, -, hafter⟩
  · rcases List.append_eq_append_iff.1 hxs with ⟨rest, rfl, -⟩ | ⟨mid, rfl, hafter⟩
    · exact .inl ⟨pre, rest, by simp⟩
    · rcases List.cons_eq_append_iff.1 hafter with ⟨rfl, -⟩ | ⟨back, rfl, hback⟩
      · exact .inl ⟨pre, [], by simp⟩
      · exact .inr (.inr ⟨front, back, rfl, ⟨pre, rfl⟩, ⟨post, hback.symm⟩⟩)
  · rcases List.cons_eq_append_iff.1 hafter with ⟨rfl, hxs⟩ | ⟨mid, rfl, rfl⟩
    · rcases List.append_eq_cons_iff.1 hxs with ⟨rfl, -⟩ | ⟨back, rfl, hback⟩
      · exact .inl ⟨[], before, rfl⟩
      · exact .inr (.inr ⟨[], back, rfl, List.nil_suffix, ⟨post, hback.symm⟩⟩)
    · exact .inr (.inl ⟨mid, post, by simp⟩)

/-- What climbing makes holds no two operators that it compares and that do not
agree. -/
theorem Grouping.Climbed.agrees {t : Grouping} (h : t.Climbed) {first second : Operator}
    {between : List Operator} (hcompared : Compared t.operators first between second) :
    first.Agrees second := by
  induction h generalizing first between second with
  | operand => simpa using hcompared.stretch
  | @operation op left right before after meeting first' second' ihl ihr =>
    have hstretch := hcompared.stretch
    rw [operators_operation] at hstretch
    rcases infix_append_cons hstretch with hleft | hright | ⟨front, back, heq, hfront, hback⟩
    · exact ihl ⟨⟨hleft, hcompared.level, hcompared.stronger⟩, hcompared.near⟩
    · exact ihr ⟨⟨hright, hcompared.level, hcompared.stronger⟩, hcompared.near⟩
    · rcases List.cons_eq_append_iff.1 heq with ⟨rfl, hops⟩ | ⟨front, rfl, hops⟩
      · -- The first of the two is the root.
        obtain ⟨rfl, rfl⟩ := List.cons.inj hops
        have hle := second'.le_precedence after second (hback.subset (by simp))
        have hright : op.fixity.assoc = .right := by
          rw [← hcompared.level] at hle
          unfold rightFloor at hle
          split at hle
          · assumption
          · omega
          · omega
        rw [hcompared.near hright] at hback
        obtain ⟨others, hothers⟩ := hback
        exact meeting second (by simp [← hothers])
      · have hfirst : op.Allows .left first :=
          first'.allows_left before first (hfront.subset List.mem_cons_self)
        rcases List.eq_nil_or_concat back with rfl | ⟨back, last, rfl⟩
        · -- The second of the two is the root.
          obtain ⟨-, hlast⟩ := List.append_inj' hops rfl
          obtain rfl : second = op := by simpa using hlast
          exact (hfirst.agrees (by decide)).symm
        · -- The root stands between the two, and is too weak for that.
          rw [List.concat_eq_append, ← List.cons_append, ← List.append_assoc] at hops
          obtain ⟨rfl, -⟩ := List.append_inj' hops rfl
          have hlt := hcompared.stronger op (by simp)
          exact absurd hfirst.le (Nat.not_le_of_lt hlt)

namespace Grouping

/-- Climbing compares an operator with the one before it on its level. -/
theorem Fits.compared {t : Grouping} {op : Operator} {floor : Nat} {previous : Option Operator}
    {links : List (Operator × Expr)} {next : Expr} {d : Diagnostic}
    (h : t.Fits floor previous ((op, next) :: links))
    (hcheck : checkPrevious (t.root?.or previous) op = .error d) :
    ∃ first between, Compared (previous.toList ++ t.operators ++ op :: links.map (·.1))
      first between op ∧ checkMeeting first op = .error d := by
  cases t with
  | operand e =>
    cases previous with
    | none => cases hcheck
    | some previous =>
      refine ⟨previous, [], ⟨⟨?_, (checkMeeting_eq_error hcheck).1, by simp⟩, fun _ => rfl⟩, hcheck⟩
      exact ⟨[], links.map (·.1), by simp⟩
  | operation root left right =>
    have hlevel := (checkMeeting_eq_error hcheck).1
    have hstop : op.fixity.precedence < rightFloor root.fixity := h.stop root rfl (op, next) rfl
    have hright : root.fixity.assoc ≠ .right := by
      intro hright
      simp [rightFloor, hright, hlevel] at hstop
    cases h.climbed with
    | operation _ after _ _ second =>
      refine ⟨root, right.operators, ⟨⟨?_, hlevel, fun o ho => ?_⟩, fun h => absurd h hright⟩, hcheck⟩
      · exact ⟨previous.toList ++ left.operators, links.map (·.1), by simp⟩
      · rw [hlevel]
        exact Nat.lt_of_lt_of_le hstop (second.le_precedence after o ho)

/-- Climbing fails at an operator that nests too deep, or at one that does not
agree with an operator it is compared with. -/
theorem Fits.exists_of_error {t : Grouping} {budget floor : Nat} {previous : Option Operator}
    {links : List (Operator × Expr)} {d : Diagnostic} (h : t.Fits floor previous links)
    (hgathered : gathered budget floor (t.root?.or previous) t.expr links = .error d) :
    (∃ op : Operator, d = (Problem.chainTooDeep op.name.text).at op.name.span) ∨
      ∃ first between second, Compared (previous.toList ++ t.operators ++ links.map (·.1))
        first between second ∧ checkMeeting first second = .error d := by
  induction hn : links.length using Nat.strongRecOn
    generalizing t budget floor previous links with
  | _ n ih =>
    subst hn
    cases links with
    | nil => simp [gathered_nil] at hgathered
    | cons link links =>
      obtain ⟨op, next⟩ := link
      obtain ⟨hfloor, hcheck | ⟨hcheck, rfl | ⟨rest, rfl, hright | ⟨r, middle, hright, hrest⟩⟩⟩⟩ :=
        gathered_cons_eq_error hgathered
      · obtain ⟨first, between, hcompared, hmeeting⟩ := h.compared hcheck
        exact .inr ⟨first, between, op, hcompared, hmeeting⟩
      · exact .inl ⟨op, rfl⟩
      · refine (ih links.length (by simp) (Fits.start next _ _ _) hright rfl).imp_right ?_
        rintro ⟨first, between, second, hcompared, hmeeting⟩
        refine ⟨first, between, second, hcompared.mono ?_, hmeeting⟩
        exact ⟨previous.toList ++ t.operators, [], by simp⟩
      · obtain ⟨right, hfits, -, rfl, rfl, hlinks⟩ :=
          (Fits.start next _ _ _).exists_of_gathered (Nat.zero_le _) hright
        have hfits' := h.push hfloor hcheck hfits (gathered_floor hright)
        refine (ih middle.length (Nat.lt_succ_of_le (length_gathered hright)) hfits' hrest rfl).imp_right ?_
        rintro ⟨first, between, second, hcompared, hmeeting⟩
        refine ⟨first, between, second, ?_, hmeeting⟩
        have hops : (right.links ++ middle).map (·.1) = links.map (·.1) := congrArg _ hlinks
        rw [List.map_append] at hops
        rw [operators_operation] at hcompared
        simpa [← hops, operators] using hcompared

end Grouping

namespace Chain

/-- Climbing makes a grouping of the whole chain, or finds that it nests too
deep, or that two operators it compares clash. -/
theorem group_cases (budget : Nat) (chain : Chain) :
    (∃ t : Grouping, t.chain = chain ∧ t.Climbed ∧ t.rightEdges ≤ budget ∧
      chain.group budget = .ok t.expr) ∨
    (∃ op : Operator, chain.group budget =
      .error ((Problem.chainTooDeep op.name.text).at op.name.span)) ∨
    ∃ first between second d, Compared chain.operators first between second ∧
      first.Clashes second ∧ chain.group budget = .error d ∧ d.problem.stage = .fixity := by
  have hstart := Grouping.Fits.start chain.head 0 none chain.links
  cases hgroup : chain.group budget with
  | ok e =>
    obtain ⟨t, hfits, hedges, rfl, hhead, hlinks⟩ :=
      hstart.exists_of_gathered (Nat.zero_le budget) (group_eq_ok hgroup)
    refine .inl ⟨t, ?_, hfits.climbed, hedges, rfl⟩
    rw [List.append_nil] at hlinks
    rw [Grouping.chain, hhead, hlinks]
    rfl
  | error d =>
    have hgathered : gathered budget 0 none chain.head chain.links = .error d := by
      rw [group_eq] at hgroup
      cases hgathered : gathered budget 0 none chain.head chain.links with
      | error d' => simpa [hgathered, Except.map] using hgroup
      | ok r => simp [hgathered, Except.map] at hgroup
    rcases hstart.exists_of_error hgathered with ⟨op, rfl⟩ | ⟨first, between, second, hcompared, hcheck⟩
    · exact .inr (.inl ⟨op, rfl⟩)
    · obtain ⟨-, hclash, hstage⟩ := checkMeeting_eq_error hcheck
      exact .inr (.inr ⟨first, between, second, d, hcompared, hclash, rfl, hstage⟩)

/-- Unless it nests too deep, a chain is rejected if and only if two operators
that climbing compares clash. -/
theorem group_rejected_iff {budget : Nat} {chain : Chain}
    (hdeep : ∀ op span, chain.group budget ≠ .error ((Problem.chainTooDeep op).at span)) :
    (∃ d, chain.group budget = .error d ∧ d.problem.stage = .fixity) ↔
      ∃ first between second, Compared chain.operators first between second ∧
        first.Clashes second := by
  rcases group_cases budget chain with
    ⟨t, rfl, hclimbed, -, hgroup⟩ | ⟨op, hgroup⟩ |
      ⟨first, between, second, d, hcompared, hclash, hgroup, hstage⟩
  · refine iff_of_false ?_ ?_
    · rintro ⟨d, hd, -⟩
      rw [hgroup] at hd
      cases hd
    · rintro ⟨first, between, second, hcompared, hclash⟩
      exact (Operator.clashes_iff hcompared.level).1 hclash (hclimbed.agrees hcompared)
  · exact absurd hgroup (hdeep _ _)
  · exact iff_of_true ⟨d, hgroup, hstage⟩ ⟨first, between, second, hcompared, hclash⟩

end Chain

/-- With enough budget climbing gives back the grouping of a whole chain. -/
theorem Grouping.Climbed.gathered_eq {t : Grouping} (h : t.Climbed) {budget : Nat}
    (hbudget : t.rightEdges ≤ budget) :
    gathered budget 0 none t.head t.links = .ok (t.expr, []) := by
  have hgathered := h.fits.gathered_eq hbudget
  rwa [List.append_nil, gathered_nil] at hgathered

theorem Grouping.Climbed.climb_eq {t : Grouping} (h : t.Climbed) (span : Span) {budget : Nat}
    (hbudget : t.rightEdges ≤ budget) :
    t.chain.queues.climb span budget 0 none = .ok (t.expr, ⟨⟨[], []⟩, Nat.zero_le _⟩) := by
  obtain ⟨hleft, hclimb⟩ := Queues.climb_eq_ok span t.chain (h.gathered_eq hbudget)
  exact hclimb

/-- With less budget climbing fails. -/
theorem Grouping.Climbed.exists_climb_eq_error {t : Grouping} (h : t.Climbed) (span : Span)
    {budget : Nat} (hbudget : budget < t.rightEdges) :
    ∃ op ∈ t.chain.queues.operators, t.chain.queues.climb span budget 0 none =
      .error ((Problem.chainTooDeep op.name.text).at op.name.span) := by
  obtain ⟨op, hop, hgathered⟩ := h.fits.gathered_eq_error hbudget
  rw [List.append_nil] at hgathered
  exact ⟨op, hop, Queues.climb_eq_error span t.chain hgathered⟩

end Fixity

end Offside
