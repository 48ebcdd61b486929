-- SUMMARY: The problems of layout are at lexemes of the text.
import Offside.Proofs.Layout.Steps

/-! # Problems of layout

A line that starts at a wrong column is a problem at its first token, and a
block that is never closed one at its opening brace, which stays on the stack
until the end. So every problem of layout is at a lexeme of the text:
`exists_mem_of_resolve`. -/

namespace Offside

namespace Layout

/-- `S` holds of the span of the brace that opened the block, if a brace did. -/
def Frame.Opens (S : Span → Prop) : Frame → Prop
  | .braced _ opening => S opening
  | .implicit .. | .bracket => True

/-- A problem of layout at a span of which `S` holds. -/
def Misplaces (S : Span → Prop) (d : Diagnostic) : Prop :=
  d.problem.stage = .layout ∧ S d.span

variable {S : Span → Prop} {tok : Lexeme} {stack left : List Frame} {state : State}

theorem misplaces_dedent (htok : S tok.span) (inner : Option Nat) (stack : List Frame) :
    ∀ d ∈ (dedent tok inner stack).1.diagnostics, Misplaces S d := by
  fun_induction dedent tok inner stack with
  | case1 | case3 | case6 => simp [TokenStream.empty]
  | case2 | case4 => exact List.forall_mem_singleton.2 ⟨rfl, htok⟩
  | case5 _ _ _ _ _ _ _ closed left hrest ih =>
    rw [hrest] at ih
    simpa using ih

/-- Putting out a token has no problems but at the token, and opens no block in
braces. -/
theorem misplaces_put (htok : S tok.span) (opened : Bool) (hstack : ∀ f ∈ stack, f.Opens S) :
    (∀ d ∈ (put tok opened stack).1.diagnostics, Misplaces S d) ∧
      ∀ f ∈ (put tok opened stack).2.stack, f.Opens S := by
  refine ⟨?_, ?_⟩
  · rcases put_cases tok opened stack with
      ⟨-, count, left, -, hput⟩ | ⟨-, hput⟩ | ⟨-, -, moved, left, hmoved, hput⟩
    · simp [hput]
    · rw [hput, putCloser]
      split
      · split <;> simp
      · simp
      · simp
    -- A lexeme that starts a line is compared with the blocks first.
    · rw [hput, TokenStream.diagnostics_append]
      refine List.forall_mem_append.2 ⟨?_, by simp [putPlain]⟩
      rcases hmoved with hmoved | ⟨rfl, -⟩
      · obtain rfl : (dedent tok none stack).1 = moved := congrArg Prod.fst hmoved.symm
        exact misplaces_dedent htok none stack
      · simp [TokenStream.empty]
  · obtain ⟨left, hleft, hput | hput⟩ := stack_put tok opened stack
    · rw [hput]
      exact fun f hf => hstack f (hleft.subset hf)
    · rw [hput]
      exact List.forall_mem_cons.2 ⟨trivial, fun f hf => hstack f (hleft.subset hf)⟩

theorem misplaces_step (htok : S tok.span) (hstack : ∀ f ∈ state.stack, f.Opens S) :
    (∀ d ∈ (step state tok).1.diagnostics, Misplaces S d) ∧
      ∀ f ∈ (step state tok).2.stack, f.Opens S := by
  -- A lexeme may open a block by its column, which is no block in braces.
  have hreach : ∀ f ∈ reach state tok, f.Opens S := by
    rw [reach]
    split
    · split
      · exact List.forall_mem_cons.2 ⟨trivial, hstack⟩
      · exact hstack
    · exact hstack
  rcases step_cases state tok with ⟨kind, -, -, hstep⟩ | ⟨-, opened, hstep⟩
  · rw [hstep]
    exact ⟨by simp, List.forall_mem_cons.2 ⟨htok, hstack⟩⟩
  · rw [hstep, TokenStream.diagnostics_append]
    exact misplaces_put htok opened hreach

/-- The braces of open blocks, and the problems found, are at lexemes read. -/
theorem misplaces_steps (state : State) {toks : List Lexeme} (htoks : ∀ tok ∈ toks, S tok.span)
    (hstack : ∀ f ∈ state.stack, f.Opens S) :
    (∀ d ∈ (steps state toks).1.diagnostics, Misplaces S d) ∧
      ∀ f ∈ (steps state toks).2.stack, f.Opens S := by
  induction toks generalizing state with
  | nil => exact ⟨by simp [steps, TokenStream.empty], hstack⟩
  | cons tok toks ih =>
    obtain ⟨htok, htoks⟩ := List.forall_mem_cons.1 htoks
    obtain ⟨hfirst, hnext⟩ := misplaces_step htok hstack
    obtain ⟨hothers, hlast⟩ := ih _ htoks hnext
    rw [steps_cons, TokenStream.diagnostics_append]
    exact ⟨List.forall_mem_append.2 ⟨hfirst, hothers⟩, hlast⟩

theorem misplaces_closeAll (eof : Lexeme) (hstack : ∀ f ∈ stack, f.Opens S) :
    ∀ d ∈ (closeAll eof stack).diagnostics, Misplaces S d := by
  induction stack with
  | nil => simp [closeAll, TokenStream.empty]
  | cons frame stack ih =>
    obtain ⟨hframe, hothers⟩ := List.forall_mem_cons.1 hstack
    cases frame with
    | implicit | bracket => simpa [closeAll] using ih hothers
    | braced kind opening =>
      simp only [closeAll, TokenStream.diagnostics_append]
      exact List.forall_mem_append.2 ⟨List.forall_mem_singleton.2 ⟨rfl, hframe⟩, ih hothers⟩

/-- Every problem of layout is at a lexeme of the text. -/
theorem exists_mem_of_resolve (toks : List Lexeme) :
    ∀ d ∈ (resolve toks).diagnostics,
      d.problem.stage = .layout ∧ ∃ tok ∈ toks, d.span = tok.span := by
  have htoks : ∀ tok ∈ program toks, ∃ tok' ∈ toks, tok.span = tok'.span :=
    fun tok htok => ⟨tok, program_subset htok, rfl⟩
  obtain ⟨hsteps, hlast⟩ := misplaces_steps .initial (S := fun span => ∃ tok ∈ toks, span = tok.span)
    htoks (by simp [State.initial])
  obtain ⟨eof, -, hresolve⟩ := resolve_eq toks
  rw [hresolve, TokenStream.diagnostics_append]
  refine List.forall_mem_append.2 ⟨hsteps, ?_⟩
  have hfinish : ∀ state, (finish state eof).diagnostics = (closeAll eof state.stack).diagnostics := by
    simp [finish]
  rw [hfinish]
  exact misplaces_closeAll eof hlast

end Layout

end Offside
