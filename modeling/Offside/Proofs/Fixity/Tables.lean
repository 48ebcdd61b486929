-- SUMMARY: A fixity table after any sequence of blocks entered and left.
import Mathlib.Data.List.Basic
import Mathlib.Data.List.Forall2
import Offside.Concrete
import Offside.Fixity.Table

/-! # Tables along a traversal

A table does not keep every operator that a block declares, only the first
declaration of each. `Naming` is one operator of one fixity declaration, so the
namings of a block are all that could be looked up in it. What a scope answers
is the first of them, and what is reported are the others: `Scope.Reads.collect`.
Over a sequence of moves the answer comes from the innermost block that is open
and names the operator: `lookup?_afterAll`. -/

namespace Offside

namespace Fixity

/-! ## Blocks -/

/-- An operator where a fixity declaration names it, and that declaration. -/
structure Naming where
  operator : Name
  fixity : Fixity
  span : Span
  deriving DecidableEq, Repr

/-- The entry that a naming asks for. -/
def Naming.entry (n : Naming) : Entry := ⟨n.operator.text, n.fixity, n.span⟩

/-- The operators that the fixity declarations directly in a block name, in the
order of the declarations and of the operators in each. -/
def namings {ε : Type} (decls : List (Decl ε)) : List Naming :=
  decls.flatMap fun
    | .fixity span fixity operators => operators.map (⟨·, fixity, span⟩)
    | _ => []

/-- The first of some namings of an operator. -/
def firstNaming? (ns : List Naming) (operator : String) : Option Naming :=
  ns.find? (·.operator.text = operator)

/-- The problem of a naming behind the namings `earlier` of the same block: its
operator has been declared before. -/
def Naming.problem? (earlier : List Naming) (n : Naming) : Option Diagnostic :=
  (firstNaming? earlier n.operator.text).map fun first =>
    (Problem.fixityRedeclared n.operator.text first.fixity).at n.operator.span

/-- The problems of a block's namings, each judged by those before it. -/
def repeats (ns : List Naming) : List Diagnostic :=
  ns.zipIdx.filterMap fun (n, place) => n.problem? (ns.take place)

/-- A naming at the end adds its own problem. -/
theorem repeats_concat (ns : List Naming) (n : Naming) :
    repeats (ns ++ [n]) = repeats ns ++ (n.problem? ns).toList := by
  have hearlier : ns.zipIdx.filterMap (fun (m, place) => m.problem? ((ns ++ [n]).take place)) =
      repeats ns := by
    refine List.filterMap_congr fun (m, place) hmem => ?_
    have hlt : place < ns.length := by simpa using (List.mem_zipIdx hmem).2.1
    simp only [List.take_append_of_le_length (Nat.le_of_lt hlt)]
  rw [repeats, List.zipIdx_append, List.filterMap_append, hearlier]
  cases h : n.problem? ns <;> simp [h]

/-- Every problem of a block is one of fixities. -/
theorem code_of_mem_repeats {ns : List Naming} {d : Diagnostic} (h : d ∈ repeats ns) :
    d.code = "FixityError" := by
  obtain ⟨⟨n, place⟩, -, hproblem⟩ := List.mem_filterMap.1 h
  obtain ⟨first, -, rfl⟩ := Option.map_eq_some_iff.1 hproblem
  rfl

/-! ## Scopes -/

/-- The scope has the entry of the first naming of each operator. -/
def Scope.Answers (scope : Scope) (ns : List Naming) : Prop :=
  ∀ operator, scope.find? operator = (firstNaming? ns operator).map Naming.entry

/-- A scope made from the namings `ns`, and the problems `ds` that this had. -/
structure Scope.Reads (ns : List Naming) (scope : Scope) (ds : List Diagnostic) : Prop where
  answers : scope.Answers ns
  repeats : ds = repeats ns

/-- A naming of an operator that has an entry changes no answer. -/
theorem Scope.Answers.again {scope : Scope} {ns : List Naming} (h : scope.Answers ns) {n : Naming}
    (hagain : (firstNaming? ns n.operator.text).isSome) : scope.Answers (ns ++ [n]) := by
  intro operator
  rw [h operator]
  simp only [firstNaming?] at hagain ⊢
  rw [List.find?_append]
  by_cases hname : n.operator.text = operator
  · subst hname
    rw [Option.or_of_isSome hagain]
  · simp [hname]

/-- A naming of a new operator adds its entry. -/
theorem Scope.Answers.concat {scope : Scope} {ns : List Naming} (h : scope.Answers ns)
    (n : Naming) : Scope.Answers (scope ++ [n.entry]) (ns ++ [n]) := by
  intro operator
  have hscope := h operator
  simp only [Scope.find?, firstNaming?] at hscope ⊢
  rw [List.find?_append, List.find?_append, hscope, Option.map_or]
  by_cases hname : n.operator.text = operator <;> simp [hname, Naming.entry]

namespace Scope.Reads

variable {ns : List Naming} {scope : Scope} {ds : List Diagnostic}

theorem nil : Reads [] [] [] := ⟨fun _ => rfl, rfl⟩

/-- One more operator: it is new to the scope, or it is a problem. -/
theorem declare (h : scope.Reads ns ds) (n : Naming) :
    let r := scope.declare n.fixity n.span n.operator
    r.1.Reads (ns ++ [n]) (ds ++ r.2) := by
  have hfind := h.answers n.operator.text
  have hproblems := repeats_concat ns n
  unfold Scope.declare
  cases hfirst : firstNaming? ns n.operator.text with
  | none =>
    rw [hfirst, Option.map_none] at hfind
    rw [Naming.problem?, hfirst] at hproblems
    simp only [hfind]
    exact ⟨h.answers.concat n, by simpa [h.repeats] using hproblems.symm⟩
  | some first =>
    rw [hfirst, Option.map_some] at hfind
    rw [Naming.problem?, hfirst] at hproblems
    simp only [hfind]
    exact ⟨h.answers.again (by rw [hfirst]; rfl), h.repeats ▸ hproblems.symm⟩

theorem declareAll (h : scope.Reads ns ds) (fixity : Fixity) (span : Span)
    (operators : List Name) :
    let r := scope.declareAll fixity span operators
    r.1.Reads (ns ++ operators.map (⟨·, fixity, span⟩)) (ds ++ r.2) := by
  induction operators generalizing scope ns ds with
  | nil => simpa [Scope.declareAll] using h
  | cons operator operators ih =>
    have hfirst := h.declare ⟨operator, fixity, span⟩
    have hrest := ih hfirst
    simpa [Scope.declareAll, List.append_assoc] using hrest

theorem collect {ε : Type} (h : scope.Reads ns ds) (decls : List (Decl ε)) :
    let r := scope.collect decls
    r.1.Reads (ns ++ namings decls) (ds ++ r.2) := by
  induction decls generalizing scope ns ds with
  | nil => simpa [Scope.collect, namings] using h
  | cons decl decls ih =>
    cases decl with
    | fixity span fixity operators =>
      have hrest := ih (h.declareAll fixity span operators)
      simpa [Scope.collect, namings, List.append_assoc] using hrest
    | _ => simpa [Scope.collect, namings] using ih h

end Scope.Reads

/-! ## Tables -/

/-- One move of a traversal. -/
inductive Move : Type 1 where
  | enter {ε : Type} (decls : List (Decl ε))
  | exit

/-- The table after a move. -/
def Table.after (table : Table) : Move → Table
  | .enter decls => (table.enter decls).1
  | .exit => table.exit

/-- The table after some moves. -/
def Table.afterAll (table : Table) (moves : List Move) : Table := moves.foldl after table

/-- The namings of the blocks that are open after a move, innermost first. -/
def opened (blocks : List (List Naming)) : Move → List (List Naming)
  | .enter decls => namings decls :: blocks
  | .exit => blocks.tail

/-- The namings of the blocks that are open after some moves. -/
def openedAll (moves : List Move) : List (List Naming) := moves.foldl opened []

/-- `entry` is that of the first naming of an operator in the innermost block
that names it. -/
def Innermost (blocks : List (List Naming)) (operator : String) (entry : Entry) : Prop :=
  ∃ inner earlier n later outer, blocks = inner ++ (earlier ++ n :: later) :: outer ∧
    (∀ block ∈ inner, ∀ m ∈ block, m.operator.text ≠ operator) ∧
    (∀ m ∈ earlier, m.operator.text ≠ operator) ∧
    n.operator.text = operator ∧ n.entry = entry

/-- Moves that leave each block they enter, and no other. -/
inductive Closed : List Move → Prop
  | nil : Closed []
  | block {ε : Type} (decls : List (Decl ε)) {inside rest : List Move} (hinside : Closed inside)
      (hrest : Closed rest) : Closed (.enter decls :: inside ++ .exit :: rest)

theorem firstNaming?_eq_some_iff {ns : List Naming} {operator : String} {n : Naming} :
    firstNaming? ns operator = some n ↔ n.operator.text = operator ∧
      ∃ earlier later, ns = earlier ++ n :: later ∧ ∀ m ∈ earlier, m.operator.text ≠ operator := by
  simp [firstNaming?, List.find?_eq_some_iff_append]

theorem firstNaming?_eq_none_iff {ns : List Naming} {operator : String} :
    firstNaming? ns operator = none ↔ ∀ m ∈ ns, m.operator.text ≠ operator := by
  simp [firstNaming?]

/-- The table has one scope for each block, and it answers as the block does. -/
def Table.Stacks (table : Table) (blocks : List (List Naming)) : Prop :=
  List.Forall₂ Scope.Answers table.scopes blocks

namespace Table.Stacks

variable {table : Table} {blocks : List (List Naming)}

theorem empty : Table.empty.Stacks [] := .nil

/-- One move changes the scopes as it changes the blocks. -/
theorem after (h : table.Stacks blocks) (move : Move) :
    (table.after move).Stacks (opened blocks move) := by
  cases move with
  | enter decls => exact .cons (Scope.Reads.nil.collect decls).answers h
  | exit =>
    obtain ⟨scopes⟩ := table
    change List.Forall₂ Scope.Answers scopes.tail blocks.tail
    cases h with
    | nil => exact .nil
    | cons _ hrest => exact hrest

theorem afterAll (h : table.Stacks blocks) (moves : List Move) :
    (table.afterAll moves).Stacks (moves.foldl opened blocks) := by
  induction moves generalizing table blocks with
  | nil => exact h
  | cons move moves ih => exact ih (h.after move)

/-- What the table answers is what the first block with an answer says. -/
theorem lookup? (h : table.Stacks blocks) (operator : String) :
    table.lookup? operator =
      blocks.findSome? fun ns => (firstNaming? ns operator).map Naming.entry := by
  obtain ⟨scopes⟩ := table
  change List.Forall₂ Scope.Answers scopes blocks at h
  change scopes.findSome? _ = _
  induction h with
  | nil => rfl
  | cons hscope _ ih => rw [List.findSome?_cons, List.findSome?_cons, hscope operator, ih]

end Table.Stacks

/-- Closed moves leave the table as they found it. -/
theorem Closed.afterAll {moves : List Move} (h : Closed moves) (table : Table) :
    table.afterAll moves = table := by
  induction h generalizing table with
  | nil => rfl
  | @block _ decls inside rest _ _ hinside hrest =>
    have houter : ((table.enter decls).1.afterAll inside).exit.afterAll rest = table := by
      rw [hinside, Table.exit_enter, hrest]
    simpa [Table.afterAll, Table.after] using houter

theorem innermost_iff {blocks : List (List Naming)} {operator : String} {entry : Entry} :
    (blocks.findSome? fun ns => (firstNaming? ns operator).map Naming.entry) = some entry ↔
      Innermost blocks operator entry := by
  simp only [List.findSome?_eq_some_iff, Option.map_eq_some_iff, Option.map_eq_none_iff,
    firstNaming?_eq_some_iff, firstNaming?_eq_none_iff]
  constructor
  · rintro ⟨inner, _, outer, rfl, ⟨n, ⟨hname, earlier, later, rfl, hearlier⟩, hentry⟩, hinner⟩
    exact ⟨inner, earlier, n, later, outer, rfl, hinner, hearlier, hname, hentry⟩
  · rintro ⟨inner, earlier, n, later, outer, rfl, hinner, hearlier, hname, hentry⟩
    exact ⟨inner, _, outer, rfl, ⟨n, ⟨hname, earlier, later, rfl, hearlier⟩, hentry⟩, hinner⟩

/-- A table is a stack of scopes in each of which the first naming wins: whatever
blocks have been entered and left, an operator has the entry of its first naming
in the innermost open block that names it, and none if no open block does. Each
further naming in a block is a problem of its own, in the order of the block.
Leaving a block restores every answer. -/
theorem lookup?_afterAll (moves : List Move) :
    let table := Table.empty.afterAll moves
    (∀ operator entry, table.lookup? operator = some entry ↔
      Innermost (openedAll moves) operator entry) ∧
    (∀ operator, table.lookup? operator = none ↔
      ∀ block ∈ openedAll moves, ∀ n ∈ block, n.operator.text ≠ operator) ∧
    table.depth = (openedAll moves).length ∧
    (∀ {ε : Type} (decls : List (Decl ε)), (table.enter decls).2 = repeats (namings decls) ∧
      ∀ d ∈ (table.enter decls).2, d.code = "FixityError") ∧
    ∀ inside, Closed inside → ∀ operator,
      (Table.empty.afterAll (moves ++ inside)).lookup? operator = table.lookup? operator := by
  have hstacks := Table.Stacks.empty.afterAll moves
  have hlookup := hstacks.lookup?
  refine ⟨fun operator entry => ?_, fun operator => ?_, hstacks.length_eq, fun decls => ?_,
    fun inside hinside operator => ?_⟩
  · rw [hlookup, innermost_iff, openedAll]
  · rw [hlookup, List.findSome?_eq_none_iff]
    simp only [Option.map_eq_none_iff, firstNaming?_eq_none_iff, openedAll]
  · have hproblems : ((Table.empty.afterAll moves).enter decls).2 = repeats (namings decls) :=
      (Scope.Reads.nil.collect decls).repeats
    exact ⟨hproblems, fun d hd => code_of_mem_repeats (hproblems ▸ hd)⟩
  · rw [Table.afterAll, List.foldl_append]
    exact congrArg (·.lookup? operator) (hinside.afterAll _)

/-- A block is left before any is entered, then one is entered that declares `+`
twice, and inside it one that hides `+` is entered and left. -/
theorem lookup?_afterAll_shadowed :
    let sum : Decl Concrete.Expr := .fixity ⟨0, 10⟩ ⟨.left, 6⟩ [⟨"+", ⟨9, 10⟩⟩]
    let both : Decl Concrete.Expr :=
      .fixity ⟨11, 23⟩ ⟨.right, 3⟩ [⟨"+", ⟨20, 21⟩⟩, ⟨"*", ⟨22, 23⟩⟩]
    let moves := [Move.exit, .enter [sum, both]]
    let inside := [Move.enter [both], .exit]
    let table := Table.empty.afterAll moves
    Closed inside ∧ table.lookup? "+" = some ⟨"+", ⟨.left, 6⟩, ⟨0, 10⟩⟩ ∧
      (table.enter [sum, both]).2 =
        [(Problem.fixityRedeclared "+" ⟨.left, 6⟩).at ⟨20, 21⟩] ∧
      (Table.empty.afterAll (moves ++ inside)).lookup? "+" = table.lookup? "+" := by
  intro sum both moves inside table
  have hclosed : Closed inside := .block [both] .nil .nil
  obtain ⟨hlookup, -, -, hproblems, hleave⟩ := lookup?_afterAll moves
  refine ⟨hclosed, (hlookup _ _).2 ?_, (hproblems _).1.trans (by decide), hleave _ hclosed _⟩
  exact ⟨[], [], ⟨⟨"+", ⟨9, 10⟩⟩, ⟨.left, 6⟩, ⟨0, 10⟩⟩, namings [both], [], rfl, by simp,
    by simp, rfl, rfl⟩

end Fixity

end Offside
