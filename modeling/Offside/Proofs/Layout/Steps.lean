-- SUMMARY: What one step of layout resolution can do, and layout resolution of texts one after another.
import Offside.Layout

/-! # Steps of layout resolution

`step_cases` and `put_cases` say all that a step can do. What is proved about
layout resolution is proved of these cases, and of a whole text by `steps`. -/

namespace Offside

/-- A parenthesis or brace that closes. -/
def Token.closesBracket (t : Token) : Bool := t = .rparen || t = .rbrace

/-- The tokens of a stream. -/
def TokenStream.tokens (s : TokenStream) : List Token := s.lexemes.map (·.token)

@[simp] theorem TokenStream.tokens_empty : TokenStream.empty.tokens = [] := rfl

@[simp] theorem TokenStream.tokens_append (a b : TokenStream) :
    (a ++ b).tokens = a.tokens ++ b.tokens := by
  simp [tokens]

@[simp] theorem TokenStream.empty_append (a : TokenStream) : TokenStream.empty ++ a = a := rfl

theorem TokenStream.append_assoc (a b c : TokenStream) : a ++ b ++ c = a ++ (b ++ c) := by
  change (TokenStream.mk _ _ : TokenStream) = TokenStream.mk _ _
  rw [TokenStream.mk.injEq]
  exact ⟨List.append_assoc .., List.append_assoc ..⟩

namespace Layout

/-! ## One step -/

/-- What is open when a token is put out: the block it opens, if it is the first
token of one without braces, and what was open before. -/
def reach (state : State) (tok : Lexeme) : List Frame :=
  match state.pending with
  | some kind =>
    if hasItems state.stack tok then .implicit kind tok.column :: state.stack else state.stack
  | none => state.stack

/-- The markers that are put out before a token for the block that was
announced. -/
def lead (state : State) (tok : Lexeme) : List Lexeme :=
  match state.pending with
  | some _ =>
    .marker .blockStart tok :: if hasItems state.stack tok then [] else ends 1 tok
  | none => []

/-- A step opens a block in braces, or it puts out the token after the markers
of the block that was announced. -/
theorem step_cases (state : State) (tok : Lexeme) :
    (∃ kind, state.pending = some kind ∧ tok.token = .lbrace ∧
      step state tok = (⟨[{ tok with token := .blockStart, lineStart := false }], []⟩,
        ⟨.braced kind tok.span :: state.stack, none⟩)) ∨
    ((state.pending.isSome = true → tok.token ≠ .lbrace) ∧ ∃ opened,
      step state tok = (⟨lead state tok, []⟩ ++ (put tok opened (reach state tok)).1,
        (put tok opened (reach state tok)).2)) := by
  obtain ⟨stack, pending⟩ := state
  cases pending with
  | none => exact .inr ⟨nofun, false, rfl⟩
  | some kind =>
    by_cases hbrace : tok.token = .lbrace
    · exact .inl ⟨kind, rfl, hbrace, by simp [step, hbrace]⟩
    · refine .inr ⟨fun _ => hbrace, ?_⟩
      cases hitems : hasItems stack tok with
      | true => exact ⟨true, by simp [step, hbrace, hitems, reach, lead]⟩
      | false => exact ⟨false, by simp [step, hbrace, hitems, reach, lead]⟩

/-- A token is put out by itself, after the ends of blocks that it closes or
after the marker of the item that it starts. -/
theorem put_cases (tok : Lexeme) (opened : Bool) (stack : List Frame) :
    (tok.token = .kwIn ∧ ∃ count left,
      (closeLet? stack = some (count, left) ∨ closeLet? stack = none ∧ count = 0 ∧ left = stack) ∧
      put tok opened stack = (⟨ends count tok ++ [tok], []⟩, ⟨left, none⟩)) ∨
    (tok.token.closesBracket = true ∧ put tok opened stack = putCloser tok stack) ∨
    (tok.token ≠ .kwIn ∧ tok.token.closesBracket = false ∧ ∃ moved left,
      ((moved, left) = dedent tok none stack ∨ moved = .empty ∧ left = stack) ∧
      put tok opened stack = (moved ++ (putPlain tok left).1, (putPlain tok left).2)) := by
  rw [put]
  split
  · rename_i hin
    cases hclose : closeLet? stack with
    | none => exact .inl ⟨hin, 0, stack, .inr ⟨rfl, rfl, rfl⟩, rfl⟩
    | some closed => exact .inl ⟨hin, closed.1, closed.2, .inl rfl, rfl⟩
  · rename_i hcloser
    exact .inr (.inl ⟨by rw [hcloser]; rfl, rfl⟩)
  · rename_i hcloser
    exact .inr (.inl ⟨by rw [hcloser]; rfl, rfl⟩)
  · rename_i hin hparen hbrace
    refine .inr (.inr ⟨hin, ?_, ?_⟩)
    · simp only [Token.closesBracket, Bool.or_eq_false_iff, decide_eq_false_iff_not]
      exact ⟨hparen, hbrace⟩
    · split
      · exact ⟨_, _, .inl rfl, rfl⟩
      · exact ⟨.empty, stack, .inr ⟨rfl, rfl⟩, rfl⟩

/-- The first token of a line closes blocks without braces, and may start an item
of the one it lands in. -/
theorem dedent_cases (tok : Lexeme) (inner : Option Nat) (stack : List Frame) :
    ∃ closed left seps, stack = closed ++ left ∧ (dedent tok inner stack).2 = left ∧
      (∀ frame ∈ closed, ∃ kind column, frame = .implicit kind column) ∧
      (seps = [] ∨ seps = [.marker .blockSep tok]) ∧
      (dedent tok inner stack).1.lexemes = ends closed.length tok ++ seps := by
  fun_induction dedent tok inner stack with
  | case1 | case2 | case4 => exact ⟨[], _, _, rfl, rfl, by simp, .inr rfl, rfl⟩
  | case3 | case6 => exact ⟨[], _, _, rfl, rfl, by simp, .inl rfl, rfl⟩
  | case5 inner kind column rest _ _ _ put left hrest ih =>
    rw [hrest] at ih
    obtain ⟨closed, left', seps, hstack, hleft, hclosed, hseps, hput⟩ := ih
    refine ⟨.implicit kind column :: closed, left', seps, by rw [hstack]; rfl, hleft, ?_, hseps, ?_⟩
    · intro frame hframe
      rcases List.mem_cons.1 hframe with rfl | hframe
      · exact ⟨kind, column, rfl⟩
      · exact hclosed frame hframe
    · rw [TokenStream.lexemes_append, hput]
      rfl

/-! ## What closing leaves open -/

section

variable {stack left : List Frame} {count : Nat}

/-- An `in` closes blocks and no bracket. -/
theorem exists_closed_of_closeLet? (h : closeLet? stack = some (count, left)) :
    ∃ closed, stack = closed ++ left ∧ closed.length = count ∧ ∀ frame ∈ closed, frame ≠ .bracket := by
  fun_induction closeLet? stack generalizing count with
  | case1 | case2 =>
    obtain ⟨rfl, rfl⟩ := Prod.mk.inj (Option.some.inj h)
    exact ⟨[_], rfl, rfl, by simp⟩
  | case3 column rest ih =>
    obtain ⟨⟨count', left'⟩, hrest, heq⟩ := Option.map_eq_some_iff.1 h
    obtain ⟨rfl, rfl⟩ := Prod.mk.inj heq
    obtain ⟨closed, rfl, rfl, hclosed⟩ := ih hrest
    exact ⟨.implicit .body column :: closed, rfl, rfl, List.forall_mem_cons.2 ⟨nofun, hclosed⟩⟩
  | case4 => cases h

/-- Closing up to a bracket or brace closes blocks and no bracket. -/
theorem exists_closed_of_closeInside? (h : closeInside? stack = some (count, left)) :
    ∃ closed, stack = closed ++ left ∧ closed.length = count ∧ ∀ frame ∈ closed, frame ≠ .bracket := by
  fun_induction closeInside? stack generalizing count with
  | case1 => cases h
  | case2 kind column rest ih =>
    obtain ⟨⟨count', left'⟩, hrest, heq⟩ := Option.map_eq_some_iff.1 h
    obtain ⟨rfl, rfl⟩ := Prod.mk.inj heq
    obtain ⟨closed, rfl, rfl, hclosed⟩ := ih hrest
    exact ⟨.implicit kind column :: closed, rfl, rfl, List.forall_mem_cons.2 ⟨nofun, hclosed⟩⟩
  | case3 =>
    obtain ⟨rfl, rfl⟩ := Prod.mk.inj (Option.some.inj h)
    exact ⟨[], rfl, rfl, List.forall_mem_nil _⟩

theorem suffix_of_closeLet? (h : closeLet? stack = some (count, left)) : left <:+ stack := by
  obtain ⟨closed, rfl, -⟩ := exists_closed_of_closeLet? h
  exact List.suffix_append _ _

theorem suffix_of_closeInside? (h : closeInside? stack = some (count, left)) : left <:+ stack := by
  obtain ⟨closed, rfl, -⟩ := exists_closed_of_closeInside? h
  exact List.suffix_append _ _

end

/-- What is open after a token is put out was open before, but for a bracket that
the token opens. -/
theorem stack_put (tok : Lexeme) (opened : Bool) (stack : List Frame) : ∃ left, left <:+ stack ∧
    ((put tok opened stack).2.stack = left ∨ (put tok opened stack).2.stack = .bracket :: left) := by
  rcases put_cases tok opened stack with
    ⟨-, count, left, hlet, hput⟩ | ⟨-, hput⟩ | ⟨-, -, moved, left, hmoved, hput⟩
  · rw [hput]
    refine ⟨left, ?_, .inl rfl⟩
    rcases hlet with hclose | ⟨-, -, rfl⟩
    · exact suffix_of_closeLet? hclose
    · exact List.suffix_refl _
  · rw [hput, putCloser]
    split
    · rename_i count kind opening left hclose
      have hbraced := suffix_of_closeInside? hclose
      split
      · exact ⟨left, (List.suffix_cons _ _).trans hbraced, .inl rfl⟩
      · exact ⟨_, hbraced, .inl rfl⟩
    · rename_i count frame left _ hclose
      exact ⟨left, (List.suffix_cons _ _).trans (suffix_of_closeInside? hclose), .inl rfl⟩
    · exact ⟨stack, List.suffix_refl _, .inl rfl⟩
  · have hleft : left <:+ stack := by
      rcases hmoved with hmoved | ⟨-, rfl⟩
      · obtain ⟨closed, left', -, hsplit, hleft', -⟩ := dedent_cases tok none stack
        obtain rfl : (dedent tok none stack).2 = left := congrArg Prod.snd hmoved.symm
        exact ⟨closed, by rw [hleft', hsplit]⟩
      · exact List.suffix_refl _
    rw [hput, putPlain]
    split
    · exact ⟨left, hleft, .inr rfl⟩
    · exact ⟨left, hleft, .inr rfl⟩
    · exact ⟨left, hleft, .inl rfl⟩

/-! ## Many steps -/

theorem steps_cons (state : State) (tok : Lexeme) (toks : List Lexeme) :
    steps state (tok :: toks) = ((step state tok).1 ++ (steps (step state tok).2 toks).1,
      (steps (step state tok).2 toks).2) := rfl

theorem steps_append (state : State) (xs ys : List Lexeme) :
    steps state (xs ++ ys) =
      ((steps state xs).1 ++ (steps (steps state xs).2 ys).1, (steps (steps state xs).2 ys).2) := by
  induction xs generalizing state with
  | nil => rfl
  | cons x xs ih =>
    simp only [List.cons_append, steps, ih, TokenStream.append_assoc]

/-- What is resolved of a text: all but its comments, up to the end of file. -/
def program (toks : List Lexeme) : List Lexeme :=
  (toks.filter (!·.token.isComment)).takeWhile (·.token ≠ .eof)

theorem program_subset {toks : List Lexeme} {tok : Lexeme} (h : tok ∈ program toks) : tok ∈ toks :=
  (List.mem_filter.1 ((List.takeWhile_prefix _).subset h)).1

theorem ne_eof_of_mem_program {toks : List Lexeme} {tok : Lexeme} (h : tok ∈ program toks) :
    tok.token ≠ .eof := by
  have hall : (program toks).all (·.token ≠ .eof) = true := List.all_takeWhile
  simpa using List.all_eq_true.1 hall tok h

/-- The end of file of a text: its first one, or one that is added if it has none. -/
def IsEnd (toks : List Lexeme) (eof : Lexeme) : Prop :=
  toks.find? (·.token = .eof) = some eof ∨
    (toks.find? (·.token = .eof) = none ∧ ∃ offset, eof = .eofAt offset)

theorem IsEnd.token_eq {toks : List Lexeme} {eof : Lexeme} (h : IsEnd toks eof) :
    eof.token = .eof := by
  rcases h with h | ⟨-, offset, rfl⟩
  · simpa using List.find?_some h
  · rfl

/-- The lexemes of a text with resolved layout: what its steps put out, and what
the end of file does. -/
theorem resolve_eq_of_end (toks : List Lexeme) : ∃ eof, IsEnd toks eof ∧
    resolve toks = (steps .initial (program toks)).1 ++
      finish (steps .initial (program toks)).2 eof := by
  -- An end of file is no comment, so it is the first one with comments left out.
  have hfind : (toks.filter (!·.token.isComment)).find? (·.token = .eof) =
      toks.find? (·.token = .eof) := by
    rw [List.find?_filter]
    congr 1
    funext tok
    by_cases heof : tok.token = .eof <;> simp [heof, Token.isComment]
  refine ⟨_, ?_, rfl⟩
  rw [hfind]
  split
  · rename_i eof heq
    exact .inl heq
  · rename_i heq
    exact .inr ⟨heq, _, rfl⟩

theorem resolve_eq (toks : List Lexeme) : ∃ eof : Lexeme, eof.token = .eof ∧
    resolve toks = (steps .initial (program toks)).1 ++
      finish (steps .initial (program toks)).2 eof := by
  obtain ⟨eof, hend, hresolve⟩ := resolve_eq_of_end toks
  exact ⟨eof, hend.token_eq, hresolve⟩

end Layout

end Offside
