-- SUMMARY: The columns of open blocks rise, and a line closes the blocks to the right of its column.
import Mathlib.Data.List.TakeWhile
import Offside.Proofs.Layout.Steps

/-! # The columns of open blocks

The first token of a line is compared with the innermost block only, and if that
is closed, with the next one. This finds the right place because the blocks
inside a bracket are open from the left to the right: `Rises`. A line closes
exactly the blocks it is left of, the outermost one apart. It then begins an item
if it is at the column of a block, and it is a problem if it has closed a block
without coming to the column of another: `dedent_exact`. -/

namespace Offside

namespace Layout

/-! ## Blocks inside a bracket -/

/-- A block that indentation delimits. -/
def Frame.isIndented : Frame → Bool
  | .implicit _ _ => true
  | .braced _ _ | .bracket => false

/-- The column of the items of a block that indentation delimits. -/
def Frame.column : Frame → Nat
  | .implicit _ column => column
  | .braced _ _ | .bracket => 0

/-- The blocks without braces inside the innermost bracket or brace, innermost
first. -/
def blocksInside (stack : List Frame) : List Frame := stack.takeWhile Frame.isIndented

/-- Every block is to the right of the one directly around it. -/
def Rises : List Frame → Prop
  | [] => True
  | frame :: rest =>
    (frame.isIndented = true → margin rest < frame.column ∨ rest = []) ∧ Rises rest

section

variable {kind : BlockKind} {column : Nat} {frame : Frame} {stack left rest : List Frame}

@[simp] theorem blocksInside_nil : blocksInside [] = [] := rfl

@[simp] theorem blocksInside_implicit : blocksInside (.implicit kind column :: rest) =
    .implicit kind column :: blocksInside rest := rfl

@[simp] theorem blocksInside_braced {opening : Span} :
    blocksInside (.braced kind opening :: rest) = [] := rfl

@[simp] theorem blocksInside_bracket : blocksInside (.bracket :: rest) = [] := rfl

@[simp] theorem Frame.column_implicit : (Frame.implicit kind column).column = column := rfl

theorem Rises.of_suffix (h : Rises stack) (hleft : left <:+ stack) : Rises left := by
  induction stack with
  | nil =>
    obtain rfl := List.suffix_nil.1 hleft
    trivial
  | cons frame rest ih =>
    rcases List.suffix_cons_iff.1 hleft with rfl | hleft
    · exact h
    · exact ih h.2 hleft

/-- The innermost block is the rightmost. -/
theorem Rises.le_margin (h : Rises stack) : ∀ frame ∈ blocksInside stack,
    frame.column ≤ margin stack := by
  induction stack with
  | nil => simp
  | cons top rest ih =>
    obtain ⟨htop, hrest⟩ := h
    cases top with
    | braced | bracket => simp
    | implicit kind column =>
      rw [blocksInside_implicit]
      refine List.forall_mem_cons.2 ⟨Nat.le_refl _, fun frame hframe => ?_⟩
      rcases htop rfl with hlt | rfl
      · exact Nat.le_trans (ih hrest frame hframe) (Nat.le_of_lt hlt)
      · simp at hframe

/-- The blocks inside the one at the top are to the left of it. -/
theorem Rises.lt_column (h : Rises (.implicit kind column :: rest)) :
    ∀ frame ∈ blocksInside rest, frame.column < column := by
  intro frame hframe
  rcases h.1 rfl with hlt | rfl
  · exact Nat.lt_of_le_of_lt (h.2.le_margin frame hframe) hlt
  · simp at hframe

/-- The columns of the blocks inside a bracket decrease from the inside out. -/
theorem Rises.pairwise (h : Rises stack) :
    (blocksInside stack).Pairwise fun inner outer => outer.column < inner.column := by
  induction stack with
  | nil => exact .nil
  | cons top rest ih =>
    cases top with
    | braced | bracket => exact .nil
    | implicit kind column => exact .cons h.lt_column (ih h.2)

end

/-! ## Steps -/

theorem Rises.reach {state : State} (h : Rises state.stack) (tok : Lexeme) :
    Rises (reach state tok) := by
  rw [Layout.reach]
  split
  · split
    · rename_i hitems
      refine ⟨fun _ => ?_, h⟩
      simpa [hasItems] using hitems
    · exact h
  · exact h

theorem Rises.step {state : State} (h : Rises state.stack) (tok : Lexeme) :
    Rises (step state tok).2.stack := by
  rcases step_cases state tok with ⟨kind, -, -, hstep⟩ | ⟨-, opened, hstep⟩
  · rw [hstep]
    exact ⟨nofun, h⟩
  · rw [hstep]
    obtain ⟨left, hleft, hstack | hstack⟩ := stack_put tok opened (Layout.reach state tok)
    · rw [hstack]
      exact (h.reach tok).of_suffix hleft
    · rw [hstack]
      exact ⟨nofun, (h.reach tok).of_suffix hleft⟩

/-- The columns of open blocks rise after any tokens. -/
theorem Rises.steps {state : State} (h : Rises state.stack) (toks : List Lexeme) :
    Rises (steps state toks).2.stack := by
  induction toks generalizing state with
  | nil => exact h
  | cons tok toks ih => exact ih (h.step tok)

/-! ## Where a line lands -/

/-- The blocks inside the innermost bracket that `column` is to the left of. The
outermost block of all is never one of them. -/
def leftOf (column : Nat) (stack : List Frame) : List Frame :=
  (blocksInside stack.dropLast).filter (column < ·.column)

/-- The line of `tok` begins at the column of a block. -/
def Aligned (tok : Lexeme) (stack : List Frame) : Prop :=
  ∃ frame ∈ blocksInside stack, frame.column = tok.column

/-- The line of `tok` begins left of the innermost block and at the column of
none, and it has come to a block further to the left or to the outermost one. -/
structure Astray (tok : Lexeme) (stack : List Frame) : Prop where
  dedents : ∃ top ∈ (blocksInside stack).head?, tok.column < top.column
  notAligned : ¬ Aligned tok stack
  stops : (∃ frame ∈ blocksInside stack, frame.column < tok.column) ∨ blocksInside stack = stack

/-- What is said of a line that is astray: between which blocks it is, or that it
is left of the outermost one. -/
inductive Strays (tok : Lexeme) (stack : List Frame) : Problem → Prop
  | between (outer inner) (outer_mem : outer ∈ blocksInside stack)
      (inner_mem : inner ∈ blocksInside stack) (outer_lt : outer.column < tok.column)
      (lt_inner : tok.column < inner.column) :
      Strays tok stack (.betweenBlocks tok.column outer.column inner.column)
  | leftOfAll (first) (outermost : stack.getLast? = some first) (lt_first : tok.column < first.column) :
      Strays tok stack (.leftOfFile tok.column first.column)

/-- What a line puts out when it has closed what it is left of, before its first
token. -/
inductive Lands (tok : Lexeme) (stack : List Frame) : TokenStream → Prop
  | item (aligned : Aligned tok stack) : Lands tok stack ⟨[.marker .blockSep tok], []⟩
  | astray {problem} (astray : Astray tok stack) (strays : Strays tok stack problem) :
      Lands tok stack ⟨[.marker .blockSep tok], [problem.at tok.span]⟩
  | goesOn (notAligned : ¬ Aligned tok stack) (notAstray : ¬ Astray tok stack) :
      Lands tok stack .empty

section

variable {tok : Lexeme} {kind : BlockKind} {column : Nat} {frame : Frame}
  {stack rest : List Frame} {landing : TokenStream}

theorem leftOf_cons (hrest : rest ≠ []) (hlt : tok.column < column) :
    leftOf tok.column (.implicit kind column :: rest) =
      .implicit kind column :: leftOf tok.column rest := by
  simp [leftOf, List.dropLast_cons_of_ne_nil hrest, hlt]

theorem blocksInside_dropLast_subset (stack : List Frame) :
    blocksInside stack.dropLast ⊆ blocksInside stack := by
  induction stack with
  | nil => exact List.Subset.refl _
  | cons top rest ih =>
    cases rest with
    | nil => exact List.nil_subset _
    | cons next rest =>
      rw [List.dropLast_cons_of_ne_nil (by simp)]
      cases top with
      | implicit kind column => exact List.cons_subset_cons _ ih
      | braced | bracket => exact List.nil_subset _

/-- A line closes nothing if it is left of no block. -/
theorem leftOf_eq_nil (h : ∀ frame ∈ blocksInside stack, frame.column ≤ tok.column) :
    leftOf tok.column stack = [] := by
  rw [leftOf, List.filter_eq_nil_iff]
  intro frame hframe
  have hle := h frame (blocksInside_dropLast_subset stack hframe)
  simpa using hle

theorem Rises.leftOf_eq_nil (h : Rises (.implicit kind column :: rest)) (hle : column ≤ tok.column) :
    leftOf tok.column (.implicit kind column :: rest) = [] := by
  refine Layout.leftOf_eq_nil fun frame hframe => ?_
  rcases List.mem_cons.1 hframe with rfl | hframe
  · exact hle
  · exact Nat.le_of_lt (Nat.lt_of_lt_of_le (h.lt_column frame hframe) hle)

theorem aligned_cons : Aligned tok (.implicit kind column :: rest) ↔
    column = tok.column ∨ Aligned tok rest := by
  simp [Aligned]

/-- A line to the right of the innermost block is at the column of none. -/
theorem Rises.not_aligned (h : Rises (.implicit kind column :: rest)) (hlt : column < tok.column) :
    ¬ Aligned tok (.implicit kind column :: rest) := by
  rw [aligned_cons, not_or]
  refine ⟨Nat.ne_of_lt hlt, ?_⟩
  rintro ⟨frame, hframe, heq⟩
  have hframe := h.lt_column frame hframe
  omega

/-- A line that is left of a block is also left of the blocks inside it. -/
theorem Lands.push {kind' : BlockKind} {column' : Nat}
    (h : Lands tok (.implicit kind column :: rest) landing) (hlt : tok.column < column)
    (hlt' : tok.column < column') :
    Lands tok (.implicit kind' column' :: .implicit kind column :: rest) landing := by
  have hne : column' ≠ tok.column := Nat.ne_of_gt hlt'
  have hsub : blocksInside (.implicit kind column :: rest) ⊆
      blocksInside (.implicit kind' column' :: .implicit kind column :: rest) :=
    List.subset_cons_self _ _
  cases h with
  | item aligned => exact .item (aligned_cons.2 (.inr aligned))
  | astray astray strays =>
    refine .astray ⟨⟨_, rfl, hlt'⟩, fun h => ?_, ?_⟩ ?_
    · exact astray.notAligned ((aligned_cons.1 h).resolve_left hne)
    · refine astray.stops.imp (fun ⟨frame, hframe, hbelow⟩ => ⟨frame, hsub hframe, hbelow⟩) fun h => ?_
      rw [blocksInside_implicit, h]
    · cases strays with
      | between outer inner outer_mem inner_mem outer_lt lt_inner =>
        exact .between outer inner (hsub outer_mem) (hsub inner_mem) outer_lt lt_inner
      | leftOfAll first outermost lt_first =>
        exact .leftOfAll first (by rw [List.getLast?_cons_cons, outermost]) lt_first
  | goesOn notAligned notAstray =>
    refine .goesOn (fun h => notAligned ((aligned_cons.1 h).resolve_left hne)) fun h => notAstray ?_
    refine ⟨⟨_, rfl, hlt⟩, notAligned, h.stops.imp ?_ fun h => ?_⟩
    · rintro ⟨frame, hframe, hbelow⟩
      rcases List.mem_cons.1 hframe with rfl | hframe
      · exact absurd hlt' (Nat.lt_asymm hbelow)
      · exact ⟨frame, hframe, hbelow⟩
    · exact (List.cons.inj h).2

/-- A line closes the blocks of `stack` that it is left of, and it then lands as it
does among all of the blocks of `whole`. -/
def Settles (tok : Lexeme) (inner : Option Nat) (whole stack : List Frame) : Prop :=
  ∃ left landing, stack = leftOf tok.column stack ++ left ∧
    dedent tok inner stack = (⟨ends (leftOf tok.column stack).length tok, []⟩ ++ landing, left) ∧
    Lands tok whole landing

namespace Settles

variable {inner : Option Nat} {whole : List Frame}

/-- A line that closes nothing. -/
theorem stay (hnone : leftOf tok.column stack = []) (hdedent : dedent tok inner stack = (landing, stack))
    (hlands : Lands tok whole landing) : Settles tok inner whole stack := by
  refine ⟨stack, landing, ?_, ?_, hlands⟩
  · rw [hnone, List.nil_append]
  · rw [hnone, hdedent]
    rfl

/-- A line that closes the block at the top. -/
theorem close (hrest : rest ≠ []) (hlt : tok.column < column)
    (h : Settles tok (some column) whole rest) :
    Settles tok inner whole (.implicit kind column :: rest) := by
  obtain ⟨left, landing, hleft, hdedent, hlands⟩ := h
  refine ⟨left, landing, ?_, ?_, hlands⟩
  · rw [leftOf_cons hrest hlt, List.cons_append, ← hleft]
  · rw [leftOf_cons hrest hlt]
    simp only [dedent, Nat.ne_of_lt hlt, Nat.lt_asymm hlt, List.isEmpty_iff, hrest, if_false, hdedent]
    rfl

end Settles

/-- A line that is left of the outermost block does not close it. -/
theorem dedent_outermost (inner : Option Nat) (hlt : tok.column < column) :
    dedent tok inner [.implicit kind column] = (⟨[.marker .blockSep tok],
      [(Problem.leftOfFile tok.column column).at tok.span]⟩, [.implicit kind column]) := by
  simp [dedent, Nat.ne_of_lt hlt, Nat.lt_asymm hlt]

/-- Where a line lands that has closed the block at the top. -/
theorem settles_some (hrises : Rises (.implicit kind column :: rest)) (hrest : rest ≠ [])
    (hlt : tok.column < column) :
    Settles tok (some column) (.implicit kind column :: rest) rest := by
  induction rest generalizing kind column with
  | nil => exact absurd rfl hrest
  | cons next rest ih =>
    have htop : ¬ column = tok.column := Nat.ne_of_gt hlt
    cases next with
    | braced | bracket =>
      refine .stay (leftOf_eq_nil (by simp)) rfl (.goesOn ?_ fun h => ?_)
      · simpa [Aligned] using htop
      · simpa [Nat.lt_asymm hlt] using h.stops
    | implicit kind' column' =>
      rcases Nat.lt_trichotomy tok.column column' with hlt' | heq | hgt
      · cases rest with
        | nil =>
          refine .stay rfl (dedent_outermost _ hlt') (.astray ⟨⟨_, rfl, hlt⟩, ?_, .inr rfl⟩
            (.leftOfAll (.implicit kind' column') rfl hlt'))
          simpa [Aligned, htop] using Nat.ne_of_gt hlt'
        | cons =>
          obtain ⟨left, landing, hleft, hdedent, hlands⟩ := ih hrises.2 (by simp) hlt'
          exact .close (by simp) hlt' ⟨left, landing, hleft, hdedent, hlands.push hlt' hlt⟩
      · refine .stay (hrises.2.leftOf_eq_nil (Nat.le_of_eq heq.symm)) ?_
          (.item (aligned_cons.2 (.inr (aligned_cons.2 (.inl heq.symm)))))
        rw [dedent, if_pos heq]
      · have hbetween : Astray tok (.implicit kind column :: .implicit kind' column' :: rest) := by
          refine ⟨⟨_, rfl, hlt⟩, ?_, .inl ⟨.implicit kind' column', by simp, hgt⟩⟩
          rw [aligned_cons, not_or]
          exact ⟨htop, hrises.2.not_aligned hgt⟩
        refine .stay (hrises.2.leftOf_eq_nil (Nat.le_of_lt hgt)) ?_ (.astray hbetween
          (.between (.implicit kind' column') (.implicit kind column)
            (by simp) (by simp) hgt hlt))
        rw [dedent, if_neg (Nat.ne_of_gt hgt), if_pos hgt]
        rfl

/-- Where a line lands that has closed nothing yet. -/
theorem settles_none (tok : Lexeme) (hrises : Rises stack) : Settles tok none stack stack := by
  cases stack with
  | nil => exact .stay rfl rfl (.goesOn (by simp [Aligned]) fun h => by simpa using h.dedents)
  | cons top rest =>
    cases top with
    | braced | bracket =>
      refine .stay (leftOf_eq_nil (by simp)) rfl (.goesOn ?_ fun h => ?_)
      · simp [Aligned]
      · simpa using h.dedents
    | implicit kind column =>
      rcases Nat.lt_trichotomy tok.column column with hlt | heq | hgt
      · cases rest with
        | nil =>
          refine .stay rfl (dedent_outermost _ hlt) (.astray ⟨⟨_, rfl, hlt⟩, ?_, .inr rfl⟩
            (.leftOfAll (.implicit kind column) rfl hlt))
          simpa [Aligned] using Nat.ne_of_gt hlt
        | cons => exact .close (by simp) hlt (settles_some hrises (by simp) hlt)
      · refine .stay (hrises.leftOf_eq_nil (Nat.le_of_eq heq.symm)) ?_
          (.item (aligned_cons.2 (.inl heq.symm)))
        rw [dedent, if_pos heq]
      · refine .stay (hrises.leftOf_eq_nil (Nat.le_of_lt hgt)) ?_
          (.goesOn (hrises.not_aligned hgt) fun h => ?_)
        · rw [dedent, if_neg (Nat.ne_of_gt hgt), if_pos hgt]
        · obtain ⟨top, htop, hlt⟩ := h.dedents
          obtain rfl : Frame.implicit kind column = top := by simpa using htop
          exact absurd hlt (Nat.lt_asymm hgt)

end

/-! ## Lines -/

/-- `tok` begins a line, and its column is compared with the open blocks: it is
no `in` and no closing bracket, and it does not open a block itself. -/
structure Compared (state : State) (tok : Lexeme) : Prop where
  lineStart : tok.lineStart = true
  notIn : tok.token ≠ .kwIn
  notCloser : tok.token.closesBracket = false
  opensNone : state.pending.isSome = true → tok.token ≠ .lbrace ∧ hasItems state.stack tok = false

/-- A token that is compared comes after the ends of the blocks that its line
closes. -/
theorem Compared.step_eq {state : State} {tok : Lexeme} (h : Compared state tok) :
    step state tok = (⟨lead state tok, []⟩ ++ (dedent tok none state.stack).1 ++ ⟨[tok], []⟩,
      (putPlain tok (dedent tok none state.stack).2).2) := by
  have hput : put tok false state.stack = ((dedent tok none state.stack).1 ++ ⟨[tok], []⟩,
      (putPlain tok (dedent tok none state.stack).2).2) := by
    have hcloser := h.notCloser
    simp only [Token.closesBracket, Bool.or_eq_false_iff, decide_eq_false_iff_not] at hcloser
    rw [put]
    split
    · exact absurd ‹_› h.notIn
    · exact absurd ‹_› hcloser.1
    · exact absurd ‹_› hcloser.2
    · rw [h.lineStart]
      rfl
  obtain ⟨stack, pending⟩ := state
  cases pending with
  | none => exact hput
  | some kind =>
    obtain ⟨hbrace, hitems⟩ := h.opensNone rfl
    rw [TokenStream.append_assoc]
    simp only [step, hbrace, hitems, hput, lead, if_false, Bool.false_eq_true]

/-- Whatever has been read, the columns of the blocks inside a bracket rise from
the outside in. A line closes exactly those of them that it is left of, the
outermost block of all excepted. It begins an item if it is then at the column
of a block, and it is a problem if it is astray. -/
theorem dedent_exact (toks : List Lexeme) :
    let state := (steps .initial toks).2
    (blocksInside state.stack).Pairwise (fun inner outer => outer.column < inner.column) ∧
      ∀ tok, Compared state tok → ∃ left landing,
        state.stack = leftOf tok.column state.stack ++ left ∧
        step state tok = (⟨lead state tok ++ ends (leftOf tok.column state.stack).length tok, []⟩ ++
          landing ++ ⟨[tok], []⟩, (putPlain tok left).2) ∧
        Lands tok state.stack landing := by
  intro state
  have hinitial : Rises State.initial.stack := trivial
  have hrises : Rises state.stack := hinitial.steps toks
  refine ⟨hrises.pairwise, fun tok htok => ?_⟩
  obtain ⟨left, landing, hleft, hdedent, hlands⟩ := settles_none tok hrises
  refine ⟨left, landing, hleft, ?_, hlands⟩
  rw [htok.step_eq, hdedent, ← TokenStream.append_assoc]
  rfl

/-- The last line here closes two blocks, and is then between the outermost one
and the second:

```
f where
    g where
        h
  k
```
-/
theorem dedent_exact_between :
    let tok (t : Token) (start line column : Nat) (lineStart : Bool) : Lexeme :=
      ⟨t, ⟨start, start + 1⟩, line, column, lineStart⟩
    let state := (steps .initial [tok (.ident "f") 0 1 1 true, tok .kwWhere 2 1 3 false,
      tok (.ident "g") 12 2 5 true, tok .kwWhere 14 2 7 false, tok (.ident "h") 28 3 9 true]).2
    let last := tok (.ident "k") 32 4 3 true
    Compared state last ∧ leftOf last.column state.stack = [.implicit .body 9, .implicit .body 5] ∧
      ∃ left landing, state.stack = leftOf last.column state.stack ++ left ∧
        step state last = (⟨lead state last ++ ends (leftOf last.column state.stack).length last, []⟩ ++
          landing ++ ⟨[last], []⟩, (putPlain last left).2) ∧
        Lands last state.stack landing := by
  intro tok state last
  have hcompared : Compared state last := ⟨rfl, nofun, rfl, nofun⟩
  exact ⟨hcompared, by decide, (dedent_exact _).2 last hcompared⟩

end Layout

end Offside
