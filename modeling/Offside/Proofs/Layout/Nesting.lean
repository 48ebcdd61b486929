-- SUMMARY: Brackets, braces and blocks in resolved layout nest exactly if no `in` closes a block in braces.
import Mathlib.Data.List.Basic
import Offside.Cursor
import Offside.Proofs.Layout.Steps

/-! # Nesting of brackets and blocks

`nesting` reads tokens with a stack of the closers that are awaited. The frames
of the layout state say what is awaited in the text and in what has been put
out: `Awaits`. One step of layout resolution keeps this, unless it is an `in`
that closes a block in braces. After such a step there is one closing bracket
too many in the text for what is still open, so nothing nests at the end. -/

namespace Offside

/-! ## Nested tokens -/

/-- The token that closes what a token opens. -/
def Token.closer? : Token → Option Token
  | .lparen => some .rparen
  | .lbrace => some .rbrace
  | .blockStart => some .blockEnd
  | _ => none

/-- The closers that are awaited after a token, when those in `awaited` are
before it, innermost first. A closer that is not the next one awaited is an
error. -/
def awaitedAfter (awaited : List Token) (t : Token) : Option (List Token) :=
  match t.closer? with
  | some c => some (c :: awaited)
  | none =>
    if t.isCloser then if awaited.head? = some t then some awaited.tail else none
    else some awaited

/-- The closers that are awaited after some tokens. -/
def nesting : (awaited : List Token) → List Token → Option (List Token)
  | awaited, [] => some awaited
  | awaited, t :: ts => (awaitedAfter awaited t).bind (nesting · ts)

/-- Parentheses, braces and blocks are closed in the order in which they were
opened, and none is left open. -/
def Nested (ts : List Token) : Prop := nesting [] ts = some []

instance (ts : List Token) : Decidable (Nested ts) := inferInstanceAs (Decidable (_ = _))

section

variable {awaited awaited' ts us : List Token} {t c : Token}

theorem nesting_append :
    nesting awaited (ts ++ us) = (nesting awaited ts).bind (nesting · us) := by
  induction ts generalizing awaited with
  | nil => rfl
  | cons t ts ih =>
    rw [List.cons_append, nesting, nesting, Option.bind_assoc]
    exact congrArg _ (funext fun _ => ih)

theorem nesting_of_append (h : nesting awaited ts = some awaited') :
    nesting awaited (ts ++ us) = nesting awaited' us := by
  rw [nesting_append, h]
  rfl

@[simp] theorem nesting_singleton : nesting awaited [t] = awaitedAfter awaited t := by
  simp [nesting]

theorem awaitedAfter_opener (h : t.closer? = some c) :
    awaitedAfter awaited t = some (c :: awaited) := by
  simp [awaitedAfter, h]

theorem awaitedAfter_plain (h : t.closer? = none) (hc : t.isCloser = false) :
    awaitedAfter awaited t = some awaited := by
  simp [awaitedAfter, h, hc]

theorem closer?_of_isCloser (h : t.isCloser = true) : t.closer? = none := by
  cases t <;> first | rfl | simp [Token.isCloser] at h

theorem awaitedAfter_closer (h : t.isCloser = true) :
    awaitedAfter (t :: awaited) t = some awaited := by
  simp [awaitedAfter, closer?_of_isCloser h, h]

/-- A closer is the next one awaited. -/
theorem eq_cons_of_awaitedAfter (hc : t.isCloser = true)
    (h : awaitedAfter awaited t = some awaited') : awaited = t :: awaited' := by
  simp only [awaitedAfter, closer?_of_isCloser hc, hc, if_true] at h
  split at h
  · rename_i hhead
    obtain ⟨rest, rfl⟩ := List.head?_eq_some_iff.1 hhead
    rw [← Option.some.inj h]
    rfl
  · simp at h

end

/-! ## Counting brackets -/

/-- A parenthesis or brace that opens. -/
def Token.opensBracket (t : Token) : Bool := t = .lparen || t = .lbrace

theorem countP_awaitedAfter {awaited awaited' : List Token} {t : Token}
    (h : awaitedAfter awaited t = some awaited') :
    awaited.countP Token.closesBracket + [t].countP Token.opensBracket =
      awaited'.countP Token.closesBracket + [t].countP Token.closesBracket := by
  cases hc : t.isCloser with
  | true =>
    obtain rfl := eq_cons_of_awaitedAfter hc h
    cases t <;>
      simp [Token.isCloser, Token.opensBracket, Token.closesBracket] at hc ⊢
  | false =>
    cases t <;>
      simp [Token.isCloser, awaitedAfter, Token.closer?] at hc h <;> subst h <;>
      simp [Token.opensBracket, Token.closesBracket]

theorem countP_nesting {awaited awaited' ts : List Token} (h : nesting awaited ts = some awaited') :
    awaited.countP Token.closesBracket + ts.countP Token.opensBracket =
      awaited'.countP Token.closesBracket + ts.countP Token.closesBracket := by
  induction ts generalizing awaited with
  | nil =>
    obtain rfl : awaited = awaited' := by simpa [nesting] using h
    rfl
  | cons t ts ih =>
    obtain ⟨next, hstep, hrest⟩ := Option.bind_eq_some_iff.1 h
    have hfirst := countP_awaitedAfter hstep
    have hothers := ih hrest
    rw [← List.singleton_append, List.countP_append, List.countP_append]
    omega

/-- The surplus of closing over opening brackets in some tokens. -/
def surplus (ts : List Token) : Int :=
  ts.countP Token.closesBracket - ts.countP Token.opensBracket

theorem surplus_append (ts us : List Token) : surplus (ts ++ us) = surplus ts + surplus us := by
  rw [surplus, surplus, surplus, List.countP_append, List.countP_append]
  omega

theorem surplus_eq_zero {ts : List Token}
    (h : ∀ t ∈ ts, t.closesBracket = false ∧ t.opensBracket = false) : surplus ts = 0 := by
  rw [surplus, List.countP_eq_zero.2 fun t ht => by simp [(h t ht).1],
    List.countP_eq_zero.2 fun t ht => by simp [(h t ht).2]]
  rfl

/-- As many parentheses and braces open as close. -/
theorem Nested.surplus_eq_zero {ts : List Token} (h : Nested ts) : surplus ts = 0 := by
  have hcount := countP_nesting h
  rw [surplus]
  simp only [List.countP_nil] at hcount
  omega

namespace Layout

/-! ## What the frames await -/

/-- The closers that the frames above `base` await: in the text, and in what is
put out. Blocks without braces have none in the text. -/
inductive Awaits (base : List Frame) : List Frame → (text out : List Token) → Prop
  | base : Awaits base base [] []
  | implicit {stack text out} (kind : BlockKind) (column : Nat) (rest : Awaits base stack text out) :
      Awaits base (.implicit kind column :: stack) text (.blockEnd :: out)
  | braced {stack text out} (kind : BlockKind) (opening : Span)
      (rest : Awaits base stack text out) :
      Awaits base (.braced kind opening :: stack) (.rbrace :: text) (.blockEnd :: out)
  | bracket {stack text out} {closer : Token} (closes : closer.closesBracket = true)
      (rest : Awaits base stack text out) :
      Awaits base (.bracket :: stack) (closer :: text) (closer :: out)

/-- Frames that nothing inside closes: none at all, or a bracket or brace. -/
def IsWall : List Frame → Prop
  | .implicit .. :: _ => False
  | _ => True

/-- Whether the innermost `let` that an `in` can close is in braces. -/
def bracedLet : List Frame → Bool
  | .braced .bindings _ :: _ => true
  | .implicit .body _ :: rest => bracedLet rest
  | _ => false

section

variable {base stack left : List Frame} {text out : List Token} {tok : Lexeme}

theorem tokens_ends (count : Nat) (tok : Lexeme) :
    (ends count tok).map (·.token) = List.replicate count .blockEnd := by
  simp [ends, Lexeme.marker]

theorem nesting_ends (out : List Token) (count : Nat) (tok : Lexeme) (ts : List Token) :
    nesting (List.replicate count .blockEnd ++ out) ((ends count tok).map (·.token) ++ ts) =
      nesting out ts := by
  rw [tokens_ends]
  induction count with
  | zero => rfl
  | succ count ih =>
    rw [List.replicate_succ, List.cons_append, List.cons_append, nesting,
      awaitedAfter_closer rfl]
    exact ih

/-- An `in` that spares blocks in braces closes blocks that are awaited. -/
theorem Awaits.closeLet (h : Awaits base stack text out) (hbase : IsWall base)
    (hspare : bracedLet stack = false) {count : Nat} (hclose : closeLet? stack = some (count, left)) :
    ∃ out', out = List.replicate count .blockEnd ++ out' ∧ Awaits base left text out' := by
  induction h generalizing count with
  | base =>
    cases base with
    | nil => simp [closeLet?] at hclose
    | cons frame rest =>
      cases frame with
      | implicit => exact hbase.elim
      | braced kind => cases kind <;> simp [closeLet?, bracedLet] at hclose hspare
      | bracket => simp [closeLet?] at hclose
  | @implicit _ _ out kind column rest ih =>
    cases kind with
    | bindings =>
      simp only [closeLet?, Option.some.injEq, Prod.mk.injEq] at hclose
      obtain ⟨rfl, rfl⟩ := hclose
      exact ⟨out, rfl, rest⟩
    | body =>
      simp only [closeLet?, Option.map_eq_some_iff, Prod.exists, Prod.mk.injEq] at hclose
      obtain ⟨count', left', hclose, rfl, rfl⟩ := hclose
      obtain ⟨out', rfl, hleft⟩ := ih hspare hclose
      exact ⟨out', by rw [List.replicate_succ, List.cons_append], hleft⟩
  | braced kind => cases kind <;> simp [closeLet?, bracedLet] at hclose hspare
  | bracket => simp [closeLet?] at hclose

/-- A closing bracket finds the frame that awaits it, inside of which only
blocks without braces are open. -/
theorem Awaits.closeInside {closer : Token} (h : Awaits base stack (closer :: text) out) :
    ∃ count frame left out' closer', closeInside? stack = some (count, frame :: left) ∧
      out = List.replicate count .blockEnd ++ closer' :: out' ∧ Awaits base left text out' ∧
      ((∃ kind opening, frame = .braced kind opening ∧ closer = .rbrace ∧ closer' = .blockEnd) ∨
        (frame = .bracket ∧ closer' = closer)) := by
  generalize htext : closer :: text = text' at h
  induction h generalizing text with
  | base => simp at htext
  | implicit kind column rest ih =>
    obtain ⟨count, frame, left, out', closer', hclose, rfl, hleft, hframe⟩ := ih htext
    exact ⟨count + 1, frame, left, out', closer', by rw [closeInside?, hclose]; rfl,
      by rw [List.replicate_succ, List.cons_append], hleft, hframe⟩
  | @braced stack _ out kind opening rest =>
    obtain ⟨rfl, rfl⟩ := List.cons.inj htext
    exact ⟨0, _, stack, out, _, rfl, rfl, rest, .inl ⟨kind, opening, rfl, rfl, rfl⟩⟩
  | @bracket stack _ out closer' closes rest =>
    obtain ⟨rfl, rfl⟩ := List.cons.inj htext
    exact ⟨0, _, stack, out, _, rfl, rfl, rest, .inr ⟨rfl, rfl⟩⟩

/-- The first token of a line closes blocks that are awaited. -/
theorem Awaits.dedent (h : Awaits base stack text out) (hbase : IsWall base) (tok : Lexeme)
    (inner : Option Nat) :
    ∃ out', nesting out (dedent tok inner stack).1.tokens = some out' ∧
      Awaits base (Layout.dedent tok inner stack).2 text out' := by
  induction h generalizing inner with
  | base =>
    cases base with
    | nil => exact ⟨[], rfl, .base⟩
    | cons frame rest =>
      cases frame with
      | implicit => exact hbase.elim
      | braced | bracket => exact ⟨[], rfl, .base⟩
  | @implicit stack _ out kind column rest ih =>
    have hstay : Awaits base (.implicit kind column :: stack) _ (.blockEnd :: out) :=
      .implicit kind column rest
    have hsep : nesting (.blockEnd :: out) [Token.blockSep] = some (.blockEnd :: out) := rfl
    by_cases hsame : tok.column = column
    · simp only [Layout.dedent, hsame, if_true]
      exact ⟨_, hsep, hstay⟩
    by_cases hright : column < tok.column
    · cases inner with
      | none =>
        simp only [Layout.dedent, hsame, hright, if_true, if_false]
        exact ⟨_, rfl, hstay⟩
      | some inner =>
        simp only [Layout.dedent, hsame, hright, if_true, if_false]
        exact ⟨_, hsep, hstay⟩
    by_cases hlast : stack.isEmpty = true
    · simp only [Layout.dedent, hsame, hright, hlast, if_true, if_false]
      exact ⟨_, hsep, hstay⟩
    · obtain ⟨out', hnest, hleft⟩ := ih (some column)
      simp only [Layout.dedent, hsame, hright, hlast, if_false]
      exact ⟨out', (nesting_ends _ 1 tok _).trans hnest, hleft⟩
  | braced kind opening rest => exact ⟨_, rfl, .braced kind opening rest⟩
  | bracket closes rest => exact ⟨_, rfl, .bracket closes rest⟩

/-! ## One step -/

/-- What `put` does with a closing bracket that is awaited. -/
theorem Awaits.putCloser (h : Awaits base stack (tok.token :: text) out)
    (hcloser : tok.token.closesBracket = true) :
    ∃ out', nesting out (putCloser tok stack).1.tokens = some out' ∧
      Awaits base (Layout.putCloser tok stack).2.stack text out' := by
  obtain ⟨count, frame, left, out', closer', hclose, rfl, hleft, hframe⟩ := h.closeInside
  obtain ⟨kind, opening, rfl, hbrace, rfl⟩ | ⟨rfl, rfl⟩ := hframe
  · refine ⟨out', ?_, ?_⟩
    · simp only [Layout.putCloser, hclose, hbrace, if_true, TokenStream.tokens, List.map_append]
      rw [nesting_ends]
      exact (nesting_singleton).trans (awaitedAfter_closer rfl)
    · simpa only [Layout.putCloser, hclose, hbrace, if_true] using hleft
  · refine ⟨out', ?_, ?_⟩
    · simp only [Layout.putCloser, hclose, TokenStream.tokens, List.map_append]
      rw [nesting_ends]
      refine (nesting_singleton).trans (awaitedAfter_closer ?_)
      cases ht : tok.token <;> first | rfl | simp [ht, Token.closesBracket] at hcloser
    · simpa only [Layout.putCloser, hclose] using hleft

theorem Awaits.putPlain {text' : List Token} (h : Awaits base stack text out)
    (hvirtual : tok.token.isVirtual = false) (hcloser : tok.token.closesBracket = false)
    (htext : awaitedAfter text tok.token = some text') :
    ∃ out', nesting out (putPlain tok stack).1.tokens = some out' ∧
      Awaits base (Layout.putPlain tok stack).2.stack text' out' := by
  simp only [Layout.putPlain, TokenStream.tokens, List.map_singleton, nesting_singleton]
  cases ht : tok.token with
  | lparen =>
    rw [ht, awaitedAfter_opener rfl] at htext
    obtain rfl := Option.some.inj htext
    exact ⟨.rparen :: out, awaitedAfter_opener rfl, .bracket rfl h⟩
  | lbrace =>
    rw [ht, awaitedAfter_opener rfl] at htext
    obtain rfl := Option.some.inj htext
    exact ⟨.rbrace :: out, awaitedAfter_opener rfl, .bracket rfl h⟩
  | rparen | rbrace => simp [ht, Token.closesBracket] at hcloser
  | blockStart | blockSep | blockEnd => simp [ht, Token.isVirtual] at hvirtual
  | _ =>
    rw [ht, awaitedAfter_plain rfl rfl] at htext
    obtain rfl := Option.some.inj htext
    exact ⟨out, awaitedAfter_plain rfl rfl, h⟩

theorem Awaits.put {text' : List Token} (h : Awaits base stack text out) (hbase : IsWall base)
    (opened : Bool) (hvirtual : tok.token.isVirtual = false)
    (hspare : tok.token = .kwIn → bracedLet stack = false)
    (htext : awaitedAfter text tok.token = some text') :
    ∃ out', nesting out (put tok opened stack).1.tokens = some out' ∧
      Awaits base (Layout.put tok opened stack).2.stack text' out' := by
  obtain ⟨hin, count, left, hclose, hput⟩ | ⟨hcloser, hput⟩ | ⟨-, hcloser, moved, left, hmoved, hput⟩ :=
    put_cases tok opened stack
  · obtain rfl : text = text' := by
      rw [hin, awaitedAfter_plain rfl rfl] at htext
      exact Option.some.inj htext
    rw [hput, TokenStream.tokens, List.map_append]
    rcases hclose with hlet | ⟨-, rfl, rfl⟩
    · obtain ⟨out', rfl, hleft⟩ := h.closeLet hbase (hspare hin) hlet
      refine ⟨out', (nesting_ends _ count tok _).trans ?_, hleft⟩
      rw [List.map_singleton, nesting_singleton, hin]
      exact awaitedAfter_plain rfl rfl
    · refine ⟨out, (nesting_ends _ 0 tok _).trans ?_, h⟩
      rw [List.map_singleton, nesting_singleton, hin]
      exact awaitedAfter_plain rfl rfl
  · have hclose : tok.token.isCloser = true := by
      cases ht : tok.token <;> first | rfl | simp [ht, Token.closesBracket] at hcloser
    rw [hput]
    obtain rfl := eq_cons_of_awaitedAfter hclose htext
    exact h.putCloser hcloser
  · obtain ⟨out₁, hout₁, hleft⟩ : ∃ out₁, nesting out moved.tokens = some out₁ ∧
        Awaits base left text out₁ := by
      obtain hmoved | ⟨rfl, rfl⟩ := hmoved
      · obtain ⟨rfl, rfl⟩ := Prod.mk.inj hmoved
        exact h.dedent hbase tok none
      · exact ⟨out, rfl, h⟩
    obtain ⟨out₂, hout₂, hnext⟩ := hleft.putPlain hvirtual hcloser htext
    refine ⟨out₂, ?_, by rw [hput]; exact hnext⟩
    rw [hput, TokenStream.tokens_append, nesting_of_append hout₁, hout₂]

/-- The markers of the block that was announced open what is then open. -/
theorem Awaits.reach {state : State} (h : Awaits base state.stack text out) (tok : Lexeme) :
    ∃ out', nesting out ((lead state tok).map (·.token)) = some out' ∧
      Awaits base (reach state tok) text out' := by
  rw [lead, Layout.reach]
  cases state.pending with
  | none => exact ⟨out, rfl, h⟩
  | some kind =>
    cases hasItems state.stack tok with
    | true => exact ⟨.blockEnd :: out, rfl, .implicit kind tok.column h⟩
    | false => exact ⟨out, rfl, h⟩

/-- A step keeps what is awaited, unless it is an `in` that closes a block in
braces. -/
theorem Awaits.step {state : State} {text' : List Token} (h : Awaits base state.stack text out)
    (hbase : IsWall base) (hvirtual : tok.token.isVirtual = false)
    (hspare : tok.token = .kwIn → bracedLet (Layout.reach state tok) = false)
    (htext : awaitedAfter text tok.token = some text') :
    ∃ out', nesting out (step state tok).1.tokens = some out' ∧
      Awaits base (Layout.step state tok).2.stack text' out' := by
  obtain ⟨kind, -, hbrace, hstep⟩ | ⟨-, opened, hstep⟩ := step_cases state tok
  · rw [hbrace, awaitedAfter_opener rfl] at htext
    obtain rfl := Option.some.inj htext
    rw [hstep]
    exact ⟨.blockEnd :: out, rfl, .braced kind tok.span h⟩
  · obtain ⟨out₁, hout₁, hreach⟩ := h.reach tok
    obtain ⟨out₂, hout₂, hnext⟩ := hreach.put hbase opened hvirtual hspare htext
    refine ⟨out₂, ?_, by rw [hstep]; exact hnext⟩
    rw [hstep, TokenStream.tokens_append]
    exact (nesting_of_append hout₁).trans hout₂

end

/-! ## Whole texts -/

/-- The number of blocks in braces that a token closes as an `in`: one or none. -/
def steals (stack : List Frame) (tok : Lexeme) : Nat :=
  if tok.token = .kwIn ∧ bracedLet stack = true then 1 else 0

/-- The number of blocks in braces that an `in` of a text closes. -/
def stolen : State → List Lexeme → Nat
  | _, [] => 0
  | state, tok :: toks => steals (reach state tok) tok + stolen (step state tok).2 toks

section

variable {base : List Frame} {text text' out : List Token}

theorem stolen_append {state : State} {xs ys : List Lexeme} :
    stolen state (xs ++ ys) = stolen state xs + stolen (steps state xs).2 ys := by
  induction xs generalizing state with
  | nil => simp [stolen, steps]
  | cons x xs ih => simp only [List.cons_append, stolen, steps, ih, Nat.add_assoc]

theorem stolen_cons_eq_zero {state : State} {tok : Lexeme} {toks : List Lexeme} :
    stolen state (tok :: toks) = 0 ↔ (tok.token = .kwIn → bracedLet (reach state tok) = false) ∧
      stolen (step state tok).2 toks = 0 := by
  rw [stolen, Nat.add_eq_zero_iff, steals]
  simp

/-- What is awaited is kept by a text in which no `in` closes a block in
braces. -/
theorem Awaits.steps {state : State} {toks : List Lexeme}
    (h : Awaits base state.stack text out) (hbase : IsWall base)
    (hvirtual : ∀ tok ∈ toks, tok.token.isVirtual = false) (hspare : stolen state toks = 0)
    (htext : nesting text (toks.map (·.token)) = some text') :
    ∃ out', nesting out (steps state toks).1.tokens = some out' ∧
      Awaits base (Layout.steps state toks).2.stack text' out' := by
  induction toks generalizing state text out with
  | nil =>
    obtain rfl : text = text' := by simpa [nesting] using htext
    exact ⟨out, rfl, h⟩
  | cons tok toks ih =>
    obtain ⟨text₁, htext₁, htext⟩ := Option.bind_eq_some_iff.1 htext
    obtain ⟨hspare₁, hspare⟩ := stolen_cons_eq_zero.1 hspare
    obtain ⟨out₁, hout₁, h₁⟩ :=
      h.step hbase (hvirtual tok List.mem_cons_self) hspare₁ htext₁
    obtain ⟨out₂, hout₂, h₂⟩ :=
      ih h₁ (fun t ht => hvirtual t (List.mem_cons_of_mem _ ht)) hspare htext
    refine ⟨out₂, ?_, h₂⟩
    rw [Layout.steps, TokenStream.tokens_append]
    exact (nesting_of_append hout₁).trans hout₂

/-- When nothing is awaited in the text, only blocks without braces are open,
and these are closed at the end of file. -/
theorem Awaits.closeAll {stack : List Frame} (h : Awaits [] stack [] out) (eof : Lexeme) :
    nesting out (closeAll eof stack).tokens = some [] := by
  generalize htext : ([] : List Token) = text at h
  induction h with
  | base => rfl
  | implicit kind column rest ih =>
    rw [Layout.closeAll, TokenStream.tokens_append]
    exact (nesting_ends _ 1 eof _).trans (ih htext)
  | braced | bracket => simp at htext

theorem Awaits.finish {state : State} (h : Awaits [] state.stack [] out) {eof : Lexeme}
    (heof : eof.token = .eof) : nesting out (finish state eof).tokens = some [] := by
  have hend : nesting [] [eof.token] = some [] := by rw [heof]; rfl
  have hlast : nesting out ((Layout.closeAll eof state.stack).tokens ++ [eof.token]) = some [] :=
    (nesting_of_append (h.closeAll eof)).trans hend
  rw [Layout.finish, TokenStream.tokens_append, TokenStream.tokens_append, List.append_assoc]
  cases state.pending with
  | none => exact hlast
  | some kind => exact hlast

end

/-! ## Counting what is open -/

/-- The number of blocks in braces that are open. -/
def braces (stack : List Frame) : Nat := stack.countP fun | .braced .. => true | _ => false

theorem surplus_ends (count : Nat) (tok : Lexeme) : surplus ((ends count tok).map (·.token)) = 0 := by
  rw [tokens_ends]
  exact surplus_eq_zero fun t ht => by rw [List.eq_of_mem_replicate ht]; exact ⟨rfl, rfl⟩

@[simp] theorem braces_implicit (kind : BlockKind) (column : Nat) (stack : List Frame) :
    braces (.implicit kind column :: stack) = braces stack := by
  simp [braces]

@[simp] theorem braces_bracket (stack : List Frame) :
    braces (.bracket :: stack) = braces stack := by
  simp [braces]

@[simp] theorem braces_braced (kind : BlockKind) (opening : Span) (stack : List Frame) :
    braces (.braced kind opening :: stack) = braces stack + 1 := by
  simp [braces]

section

variable {stack left : List Frame} {tok : Lexeme}

theorem braces_closeLet {count : Nat} (h : closeLet? stack = some (count, left)) :
    braces stack = braces left + if bracedLet stack = true then 1 else 0 := by
  induction stack generalizing count with
  | nil => simp [closeLet?] at h
  | cons frame stack ih =>
    match frame with
    | .implicit .bindings _ | .braced .bindings _ =>
      simp only [closeLet?, Option.some.injEq, Prod.mk.injEq] at h
      obtain ⟨-, rfl⟩ := h
      simp [bracedLet]
    | .implicit .body _ =>
      simp only [closeLet?, Option.map_eq_some_iff, Prod.exists, Prod.mk.injEq] at h
      obtain ⟨count', left', h, -, rfl⟩ := h
      rw [braces_implicit, bracedLet]
      exact ih h
    | .braced .body _ | .bracket => simp [closeLet?] at h

theorem bracedLet_of_closeLet?_eq_none (h : closeLet? stack = none) : bracedLet stack = false := by
  induction stack with
  | nil => rfl
  | cons frame stack ih =>
    match frame with
    | .implicit .bindings _ | .braced .bindings _ => simp [closeLet?] at h
    | .implicit .body _ =>
      rw [closeLet?, Option.map_eq_none_iff] at h
      exact ih h
    | .braced .body _ | .bracket => rfl

theorem braces_closeInside {count : Nat} (h : closeInside? stack = some (count, left)) :
    braces stack = braces left := by
  induction stack generalizing count with
  | nil => simp [closeInside?] at h
  | cons frame stack ih =>
    cases frame with
    | implicit kind column =>
      simp only [closeInside?, Option.map_eq_some_iff, Prod.exists, Prod.mk.injEq] at h
      obtain ⟨count', left', h, -, rfl⟩ := h
      rw [braces_implicit]
      exact ih h
    | braced | bracket =>
      simp only [closeInside?, Option.some.injEq, Prod.mk.injEq] at h
      rw [h.2]

theorem surplus_dedent (tok : Lexeme) (inner : Option Nat) (stack : List Frame) :
    braces (dedent tok inner stack).2 = braces stack ∧
      surplus (dedent tok inner stack).1.tokens = 0 := by
  obtain ⟨closed, left, seps, rfl, hleft, hclosed, hseps, hput⟩ := dedent_cases tok inner stack
  constructor
  · have hnone : braces closed = 0 := by
      refine List.countP_eq_zero.2 fun frame hframe => ?_
      obtain ⟨kind, column, rfl⟩ := hclosed frame hframe
      simp
    have happend : braces (closed ++ left) = braces closed + braces left := List.countP_append
    rw [hleft, happend, hnone, Nat.zero_add]
  · rw [TokenStream.tokens, hput, List.map_append, surplus_append, surplus_ends]
    rcases hseps with rfl | rfl <;> rfl

theorem surplus_putCloser (tok : Lexeme) (stack : List Frame) :
    surplus (putCloser tok stack).1.tokens + braces stack =
      surplus [tok.token] + braces (putCloser tok stack).2.stack := by
  rw [putCloser]
  split
  · rename_i count kind opening left hclose
    rw [braces_closeInside hclose]
    split
    · rename_i hbrace
      rw [TokenStream.tokens, List.map_append, surplus_append, surplus_ends, hbrace, braces_braced]
      simp [surplus, Token.closesBracket, Token.opensBracket]
      omega
    · rw [TokenStream.tokens, List.map_append, surplus_append, surplus_ends]
      simp
  · rename_i count frame left hne hclose
    rw [braces_closeInside hclose, TokenStream.tokens, List.map_append, surplus_append, surplus_ends]
    cases frame with
    | braced kind opening => exact absurd rfl (hne kind opening)
    | implicit | bracket => simp
  · simp [TokenStream.tokens]

theorem surplus_putPlain (tok : Lexeme) (stack : List Frame) :
    surplus (putPlain tok stack).1.tokens + braces stack =
      surplus [tok.token] + braces (putPlain tok stack).2.stack := by
  rw [putPlain]
  cases ht : tok.token <;> simp [TokenStream.tokens, ht]

theorem surplus_put (tok : Lexeme) (opened : Bool) (stack : List Frame) :
    surplus (put tok opened stack).1.tokens + braces stack =
      surplus [tok.token] + braces (put tok opened stack).2.stack + steals stack tok := by
  obtain ⟨hin, count, left, hclose, hput⟩ | ⟨hcloser, hput⟩ | ⟨hin, hcloser, moved, left, hmoved, hput⟩ :=
    put_cases tok opened stack
  · rw [hput, TokenStream.tokens, List.map_append, surplus_append, surplus_ends]
    rcases hclose with hlet | ⟨hlet, -, rfl⟩
    · rw [braces_closeLet hlet]
      simp only [List.map_singleton, steals, hin, true_and]
      omega
    · simp [steals, bracedLet_of_closeLet?_eq_none hlet]
  · have hin : tok.token ≠ .kwIn := by rintro h; simp [h, Token.closesBracket] at hcloser
    rw [hput, surplus_putCloser]
    simp [steals, hin]
  · have hmoved' : surplus moved.tokens = 0 ∧ braces left = braces stack := by
      obtain hmoved | ⟨rfl, rfl⟩ := hmoved
      · obtain ⟨rfl, rfl⟩ := Prod.mk.inj hmoved
        exact (surplus_dedent tok none stack).symm
      · exact ⟨rfl, rfl⟩
    have hplain := surplus_putPlain tok left
    rw [hput, TokenStream.tokens_append, surplus_append]
    simp only [steals, hin, false_and, if_false]
    omega

/-- Of a step, what it puts out has as many closing brackets too many as the
token, and one more for each block in braces that it opens or that an `in`
closes. -/
theorem surplus_step (state : State) (tok : Lexeme) :
    surplus (step state tok).1.tokens + braces state.stack =
      surplus [tok.token] + braces (step state tok).2.stack + steals (reach state tok) tok := by
  obtain ⟨kind, -, hbrace, hstep⟩ | ⟨-, opened, hstep⟩ := step_cases state tok
  · have hout : surplus (step state tok).1.tokens = 0 := by rw [hstep]; rfl
    have hopened : braces (step state tok).2.stack = braces state.stack + 1 := by
      rw [hstep]
      exact braces_braced _ _ _
    have hsurplus : surplus [tok.token] = -1 := by rw [hbrace]; rfl
    have hsteals : steals (reach state tok) tok = 0 := by simp [steals, hbrace]
    omega
  · have hlead : surplus ((lead state tok).map (·.token)) = 0 := by
      rw [lead]
      split
      · split <;> rfl
      · rfl
    have hreach : braces (reach state tok) = braces state.stack := by
      rw [reach]
      split
      · split
        · rw [braces_implicit]
        · rfl
      · rfl
    have hput := surplus_put tok opened (reach state tok)
    rw [hreach] at hput
    have hout : surplus (step state tok).1.tokens = surplus (put tok opened (reach state tok)).1.tokens := by
      rw [hstep, TokenStream.tokens_append, surplus_append]
      exact (congrArg (· + _) hlead).trans (Int.zero_add _)
    rw [hout, show (step state tok).2 = _ from congrArg Prod.snd hstep]
    exact hput

theorem surplus_steps (state : State) (toks : List Lexeme) :
    surplus (steps state toks).1.tokens + braces state.stack =
      surplus (toks.map (·.token)) + braces (steps state toks).2.stack + stolen state toks := by
  induction toks generalizing state with
  | nil => simp [steps, stolen]
  | cons tok toks ih =>
    have hfirst := surplus_step state tok
    have hothers := ih (step state tok).2
    rw [steps, TokenStream.tokens_append, surplus_append, List.map_cons, ← List.singleton_append,
      surplus_append, stolen]
    simp only [Int.natCast_add]
    omega

theorem surplus_closeAll (eof : Lexeme) (stack : List Frame) :
    surplus (closeAll eof stack).tokens = 0 := by
  induction stack with
  | nil => rfl
  | cons frame stack ih =>
    cases frame with
    | bracket => exact ih
    | implicit | braced =>
      rw [closeAll, TokenStream.tokens_append, surplus_append, ih]
      rfl

theorem surplus_finish (state : State) {eof : Lexeme} (heof : eof.token = .eof) :
    surplus (finish state eof).tokens = 0 := by
  have hlast : surplus ((closeAll eof state.stack).tokens ++ [eof.token]) = 0 := by
    rw [surplus_append, surplus_closeAll, heof]
    rfl
  rw [finish, TokenStream.tokens_append, TokenStream.tokens_append, List.append_assoc,
    surplus_append]
  cases state.pending with
  | none => exact (Int.zero_add _).trans hlast
  | some kind => exact (Int.zero_add _).trans hlast

end

/-! ## Layout resolution -/

section

variable {toks : List Lexeme}

/-- Brackets, braces and blocks nest if no `in` closes a block in braces. -/
theorem nested_resolve (hvirtual : ∀ tok ∈ toks, tok.token.isVirtual = false)
    (hnested : Nested ((program toks).map (·.token)))
    (hspare : stolen .initial (program toks) = 0) : Nested (resolve toks).tokens := by
  obtain ⟨eof, heof, hresolve⟩ := resolve_eq toks
  have hinitial : Awaits [] State.initial.stack [] [] := .base
  obtain ⟨out, hout, hawaits⟩ := hinitial.steps trivial
    (fun tok htok => hvirtual tok (program_subset htok)) hspare hnested
  rw [hresolve, TokenStream.tokens_append]
  exact (nesting_of_append hout).trans (hawaits.finish heof)

/-- If brackets, braces and blocks nest, no `in` has closed a block in braces. -/
theorem stolen_eq_zero (hnested : Nested ((program toks).map (·.token)))
    (hresolved : Nested (resolve toks).tokens) : stolen .initial (program toks) = 0 := by
  obtain ⟨eof, heof, hresolve⟩ := resolve_eq toks
  have hcount := surplus_steps .initial (program toks)
  have hout := hresolved.surplus_eq_zero
  rw [hresolve, TokenStream.tokens_append, surplus_append, surplus_finish _ heof] at hout
  rw [hnested.surplus_eq_zero] at hcount
  have hbraces : braces State.initial.stack = 0 := rfl
  omega

end

/-! ## Blocks in braces -/

theorem pending_step {state : State} {tok : Lexeme} {kind : BlockKind}
    (h : announced tok.token = some kind) : (step state tok).2.pending = some kind := by
  obtain ⟨-, -, hbrace, -⟩ | ⟨-, opened, hstep⟩ := step_cases state tok
  · simp [hbrace, announced] at h
  · rw [hstep]
    obtain ⟨hin, -⟩ | ⟨hcloser, -⟩ | ⟨-, -, moved, left, -, hput⟩ :=
      put_cases tok opened (reach state tok)
    · simp [hin, announced] at h
    · cases ht : tok.token <;> simp [ht, Token.closesBracket, announced] at hcloser h
    · rw [hput]
      exact h

theorem step_opening {state : State} {tok : Lexeme} {kind : BlockKind}
    (hpending : state.pending = some kind) (hbrace : tok.token = .lbrace) :
    step state tok = (⟨[{ tok with token := .blockStart, lineStart := false }], []⟩,
      ⟨.braced kind tok.span :: state.stack, none⟩) := by
  simp [step, hpending, hbrace]

section

variable {kind : BlockKind} {opening : Span} {stack frames : List Frame} {out : List Token}

/-- When a block in braces awaits nothing in the text but its own brace, only
blocks without braces are open in it. -/
theorem Awaits.closeInside_braced (h : Awaits (.braced kind opening :: stack) frames [] out) :
    ∃ count, closeInside? frames = some (count, .braced kind opening :: stack) ∧
      out = List.replicate count .blockEnd := by
  generalize htext : ([] : List Token) = text at h
  induction h with
  | base => exact ⟨0, rfl, rfl⟩
  | implicit _ _ _ ih =>
    obtain ⟨count, hclose, rfl⟩ := ih htext
    exact ⟨count + 1, by rw [closeInside?, hclose]; rfl, rfl⟩
  | braced | bracket => simp at htext

/-- The closing brace of a block closes it, after all blocks inside. -/
theorem Awaits.step_closing {state : State} {closing : Lexeme}
    (h : Awaits (.braced kind opening :: stack) state.stack [] out)
    (hbrace : closing.token = .rbrace) :
    ∃ before, (Layout.step state closing).1.lexemes =
        before ++ [{ closing with token := .blockEnd, lineStart := false }] ∧
      nesting out (before.map (·.token)) = some [] := by
  obtain ⟨-, -, hopen, -⟩ | ⟨-, opened, hstep⟩ := step_cases state closing
  · simp [hbrace] at hopen
  obtain ⟨out₁, hout₁, hreach⟩ := h.reach closing
  obtain ⟨count, hclose, rfl⟩ := hreach.closeInside_braced
  refine ⟨lead state closing ++ ends count closing, ?_, ?_⟩
  · simp [hstep, Layout.put, hbrace, Layout.putCloser, hclose]
  · rw [List.map_append, nesting_of_append hout₁]
    simpa [nesting] using nesting_ends [] count closing []

end

/-- A brace directly after `where` or `let` opens a block that ends at its own
closing brace. -/
theorem steps_braced {state : State} {keyword opening closing : Lexeme}
    {inside : List Lexeme} (hkeyword : keyword.token = .kwWhere ∨ keyword.token = .kwLet)
    (hopening : opening.token = .lbrace) (hclosing : closing.token = .rbrace)
    (hvirtual : ∀ tok ∈ inside, tok.token.isVirtual = false)
    (hinside : Nested (inside.map (·.token)))
    (hspare : stolen state (keyword :: opening :: inside) = 0) :
    ∃ body, (steps state (keyword :: opening :: inside ++ [closing])).1.lexemes =
        (step state keyword).1.lexemes ++
          { opening with token := .blockStart, lineStart := false } :: body ++
          [{ closing with token := .blockEnd, lineStart := false }] ∧
      Nested (body.map (·.token)) := by
  obtain ⟨kind, hkind⟩ : ∃ kind, (step state keyword).2.pending = some kind := by
    rcases hkeyword with h | h
    · exact ⟨.body, pending_step (by rw [h]; rfl)⟩
    · exact ⟨.bindings, pending_step (by rw [h]; rfl)⟩
  have hopen := step_opening hkind hopening
  have hspare' := (stolen_cons_eq_zero.1 (stolen_cons_eq_zero.1 hspare).2).2
  have hbase : Awaits (.braced kind opening.span :: (step state keyword).2.stack)
      (step (step state keyword).2 opening).2.stack [] [] := by
    rw [hopen]
    exact .base
  obtain ⟨out, hout, hawaits⟩ := hbase.steps trivial hvirtual hspare' hinside
  obtain ⟨before, hbefore, hnest⟩ := hawaits.step_closing hclosing
  refine ⟨(steps (step (step state keyword).2 opening).2 inside).1.lexemes ++ before, ?_, ?_⟩
  · rw [steps_append, steps_cons, steps_cons, TokenStream.lexemes_append,
      TokenStream.lexemes_append, TokenStream.lexemes_append, steps_cons, TokenStream.lexemes_append,
      hbefore, hopen]
    simp [steps, TokenStream.empty]
  · rw [Nested, List.map_append]
    exact (nesting_of_append hout).trans hnest

/-- What braces are for: one directly after `where` or `let` opens a block that
ends at its own closing brace, and brackets, braces and blocks nest. -/
structure BracesDelimit (toks : List Lexeme) : Prop where
  nested : Nested (resolve toks).tokens
  own : ∀ before keyword opening inside closing after,
    program toks = before ++ (keyword :: opening :: inside ++ closing :: after) →
    keyword.token = .kwWhere ∨ keyword.token = .kwLet →
    opening.token = .lbrace → closing.token = .rbrace → Nested (inside.map (·.token)) →
    ∃ body rest, (resolve toks).lexemes =
        (steps .initial (before ++ [keyword])).1.lexemes ++
          { opening with token := .blockStart, lineStart := false } :: body ++
          { closing with token := .blockEnd, lineStart := false } :: rest ∧
      Nested (body.map (·.token))

/-- In a text with nested brackets and braces, braces delimit their own blocks
exactly if no `in` closes a block in braces. -/
theorem bracesDelimit_iff {toks : List Lexeme}
    (hvirtual : ∀ tok ∈ toks, tok.token.isVirtual = false)
    (hnested : Nested ((program toks).map (·.token))) :
    BracesDelimit toks ↔ stolen .initial (program toks) = 0 := by
  refine ⟨fun h => stolen_eq_zero hnested h.nested, fun hspare => ?_⟩
  refine ⟨nested_resolve hvirtual hnested hspare, ?_⟩
  intro before keyword opening inside closing after hprogram hkeyword hopening hclosing hinside
  have hvirtual' : ∀ tok ∈ inside, tok.token.isVirtual = false := by
    intro tok htok
    exact hvirtual tok (program_subset (by simp [hprogram, htok]))
  have hprogram' : program toks =
      before ++ ((keyword :: opening :: inside ++ [closing]) ++ after) := by
    rw [hprogram, List.append_assoc, List.singleton_append]
  have hspare' : stolen (steps .initial before).2 (keyword :: opening :: inside) = 0 := by
    rw [hprogram, stolen_append, stolen_append] at hspare
    omega
  obtain ⟨body, hbody, hnest⟩ :=
    steps_braced hkeyword hopening hclosing hvirtual' hinside hspare'
  obtain ⟨rest, hrest⟩ : ∃ rest, (resolve toks).lexemes = (steps .initial before).1.lexemes ++
      ((steps (steps .initial before).2 (keyword :: opening :: inside ++ [closing])).1.lexemes ++
        rest) := by
    obtain ⟨eof, -, hresolve⟩ := resolve_eq toks
    rw [hresolve, hprogram', steps_append, steps_append]
    simp only [TokenStream.lexemes_append, List.append_assoc]
    exact ⟨_, rfl⟩
  have hkeyword' : (steps .initial (before ++ [keyword])).1.lexemes =
      (steps .initial before).1.lexemes ++ (step (steps .initial before).2 keyword).1.lexemes := by
    rw [steps_append, steps_cons]
    simp [steps, TokenStream.empty]
  refine ⟨body, rest, ?_, hnest⟩
  rw [hrest, hbody, hkeyword']
  simp only [List.append_assoc, List.cons_append, List.nil_append]

/-- In `let { a = let { b = c } in d } in e` the first `in` closes the outer
block, which leaves its own brace without a partner. -/
theorem bracesDelimit_nested_let :
    let toks : List Lexeme := ([.kwLet, .lbrace, .ident "a", .equals, .kwLet, .lbrace, .ident "b",
      .equals, .ident "c", .rbrace, .kwIn, .ident "d", .rbrace, .kwIn, .ident "e", .eof] :
        List Token).mapIdx fun n t => ⟨t, ⟨n, n + 1⟩, 1, n + 1, n = 0⟩
    Nested ((program toks).map (·.token)) ∧ stolen .initial (program toks) = 1 ∧
      ¬ BracesDelimit toks := by
  intro toks
  have hnested : Nested ((program toks).map (·.token)) := by decide
  have hstolen : stolen .initial (program toks) = 1 := by decide
  refine ⟨hnested, hstolen, fun h => ?_⟩
  have hzero := (bracesDelimit_iff (by decide) hnested).1 h
  rw [hstolen] at hzero
  exact absurd hzero (by decide)

end Layout

end Offside
