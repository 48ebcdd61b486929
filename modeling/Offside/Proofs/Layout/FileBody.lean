-- SUMMARY: The file body in resolved layout: only a brace ends it before the text does.
import Offside.Proofs.Layout.Blocks

/-! # The file body

The first token of a program opens the file body, and what is open later is
inside of it. No line and no `in` closes it. If it is opened with a brace, then
the matching brace does, and the program may go on behind it: `behind`. Resolved
layout is the block of the file body followed by what is put out for the rest:
`exists_fileBody`. -/

namespace Offside

namespace Layout

/-! ## What is put out inside a block -/

/-- How many of the frames are blocks. -/
def blockCount (frames : List Frame) : Nat := (enclosures frames).count .block

@[simp] theorem blockCount_nil : blockCount [] = 0 := rfl

@[simp] theorem blockCount_bracket (frames : List Frame) :
    blockCount (.bracket :: frames) = blockCount frames := by
  simp [blockCount, enclosures, Frame.enclosure]

theorem blockCount_append (frames others : List Frame) :
    blockCount (frames ++ others) = blockCount frames + blockCount others := by
  rw [blockCount, enclosures_append, List.count_append]
  rfl

theorem blockCount_of_blocks {frames : List Frame} (h : ∀ frame ∈ frames, frame ≠ .bracket) :
    blockCount frames = frames.length := by
  rw [blockCount, enclosures_of_blocks h, List.count_replicate_self]

theorem blockCount_cons {frame : Frame} (frames : List Frame) (h : frame ≠ .bracket) :
    blockCount (frame :: frames) = blockCount frames + 1 := by
  rw [← List.singleton_append, blockCount_append,
    blockCount_of_blocks (List.forall_mem_singleton.2 h), List.length_singleton, Nat.add_comm]

/-- The lexemes `out` are put out inside a block, in which `inner` is open before
and `inner'` after them. -/
def StaysIn (inner : List Frame) (out : List Lexeme) (inner' : List Frame) : Prop :=
  ∀ toks, blocksClose true (blockCount inner') toks = true →
    blocksClose true (blockCount inner) (out ++ toks) = true

namespace StaysIn

variable {a b c inner : List Frame} {out out' : List Lexeme} {tok : Lexeme} {frame : Frame}

theorem refl (inner : List Frame) : StaysIn inner [] inner := fun _ h => h

theorem trans (h : StaysIn a out b) (h' : StaysIn b out' c) : StaysIn a (out ++ out') c := by
  intro toks htoks
  rw [List.append_assoc]
  exact h _ (h' _ htoks)

theorem closes (h : StaysIn inner out []) : blocksClose true (blockCount inner) out = true := by
  simpa using h [] rfl

theorem start (frame : Frame) (hframe : frame ≠ .bracket) (htok : tok.token = .blockStart) :
    StaysIn inner [tok] (frame :: inner) := by
  intro toks htoks
  rw [blockCount_cons _ hframe] at htoks
  rwa [List.singleton_append, blocksClose_start htok]

theorem stop (hframe : frame ≠ .bracket) (htok : tok.token = .blockEnd) :
    StaysIn (frame :: inner) [tok] inner := by
  intro toks htoks
  rw [blockCount_cons _ hframe]
  exact (blocksClose_end htok).2 ⟨Nat.succ_pos _, htoks⟩

theorem empty {start stop : Lexeme} (hstart : start.token = .blockStart)
    (hstop : stop.token = .blockEnd) : StaysIn inner [start, stop] inner := by
  intro toks htoks
  rw [List.cons_append, blocksClose_start hstart]
  exact (blocksClose_end hstop).2 ⟨Nat.succ_pos _, htoks⟩

theorem sep (htok : tok.token = .blockSep) : StaysIn inner [tok] inner :=
  fun _ htoks => (blocksClose_sep htok).2 ⟨.inl rfl, htoks⟩

theorem plain (htok : tok.token.isVirtual = false) : StaysIn inner [tok] inner := by
  intro toks htoks
  rwa [List.singleton_append, blocksClose_plain htok]

/-- Brackets do not count. -/
@[simp] theorem bracket_iff : StaysIn a out (.bracket :: b) ↔ StaysIn a out b := by
  rw [StaysIn, blockCount_bracket]
  rfl

@[simp] theorem of_bracket_iff : StaysIn (.bracket :: a) out b ↔ StaysIn a out b := by
  rw [StaysIn, blockCount_bracket]
  rfl

/-- Ends close all that is open, whatever brackets are among it. -/
theorem ends (closed inner : List Frame) (tok : Lexeme) :
    StaysIn (closed ++ inner) (ends (blockCount closed) tok) inner := by
  induction closed with
  | nil => exact refl inner
  | cons frame closed ih =>
    by_cases hframe : frame = .bracket
    · subst hframe
      rw [blockCount_bracket]
      exact of_bracket_iff.2 ih
    · rw [blockCount_cons _ hframe]
      exact (stop hframe rfl).trans ih

theorem ends_of_blocks {closed : List Frame} (h : ∀ frame ∈ closed, frame ≠ .bracket)
    (inner : List Frame) (tok : Lexeme) :
    StaysIn (closed ++ inner) (Layout.ends closed.length tok) inner := by
  rw [← blockCount_of_blocks h]
  exact ends closed inner tok

end StaysIn

/-! ## One step -/

/-- A file body or the block of a `where`, which `in` does not end. -/
def Frame.isBody : Frame → Bool
  | .implicit .body _ | .braced .body _ => true
  | _ => false

theorem Frame.ne_bracket_of_isBody {frame : Frame} (h : frame.isBody = true) :
    frame ≠ .bracket := by
  rintro rfl
  cases h

/-- With what `out` puts out, the outermost block `bottom` stays open. -/
structure KeepsBody (bottom : Frame) (inner : List Frame) (out : List Lexeme) (next : State) :
    Prop where
  exists_inner : ∃ inner', next.stack = inner' ++ [bottom] ∧ StaysIn inner out inner'

/-- With what `out` puts out for the brace `tok`, the outermost block `bottom` ends. -/
structure EndsBody (bottom : Frame) (inner : List Frame) (tok : Lexeme) (out : List Lexeme)
    (next : State) : Prop where
  isBrace : tok.token = .rbrace
  isBraced : ∃ kind opening, bottom = .braced kind opening
  next_eq : next = ⟨[], none⟩
  exists_stop : ∃ body stop, out = body ++ [stop] ∧ stop.token = .blockEnd ∧ StaysIn inner body []

section

variable {bottom : Frame} {inner : List Frame} {tok : Lexeme}

theorem KeepsBody.lead {inner' : List Frame} {lead out : List Lexeme} {next : State}
    (h : KeepsBody bottom inner' out next) (hlead : StaysIn inner lead inner') :
    KeepsBody bottom inner (lead ++ out) next := by
  obtain ⟨left, hstack, hout⟩ := h
  exact ⟨left, hstack, hlead.trans hout⟩

theorem EndsBody.lead {inner' : List Frame} {lead out : List Lexeme} {next : State}
    (h : EndsBody bottom inner' tok out next) (hlead : StaysIn inner lead inner') :
    EndsBody bottom inner tok (lead ++ out) next := by
  obtain ⟨hbrace, hbraced, hnext, body, stop, rfl, hstop, hbody⟩ := h
  exact ⟨hbrace, hbraced, hnext, lead ++ body, stop, (List.append_assoc ..).symm, hstop,
    hlead.trans hbody⟩

/-- What is left of a stack is nothing, or it has the outermost block in it. -/
theorem exists_inner_of_append {closed left : List Frame} (h : inner ++ [bottom] = closed ++ left)
    (hleft : left ≠ []) : ∃ inner', left = inner' ++ [bottom] ∧ inner = closed ++ inner' := by
  rcases List.eq_nil_or_concat left with rfl | ⟨inner', frame, rfl⟩
  · exact absurd rfl hleft
  · rw [List.concat_eq_append] at h ⊢
    rw [← List.append_assoc] at h
    obtain ⟨rfl, hframe⟩ := List.append_inj' h rfl
    exact ⟨inner', by rw [hframe], rfl⟩

theorem ne_nil_of_closeLet? {count : Nat} {left : List Frame} (hbottom : bottom.isBody = true)
    (h : closeLet? (inner ++ [bottom]) = some (count, left)) : left ≠ [] := by
  generalize hstack : inner ++ [bottom] = stack at h
  fun_induction closeLet? stack generalizing count inner with
  | case1 | case2 =>
    obtain ⟨-, rfl⟩ := Prod.mk.inj (Option.some.inj h)
    rintro rfl
    cases inner with
    | nil =>
      obtain ⟨rfl, -⟩ := List.cons.inj hstack
      cases hbottom
    | cons => simp at hstack
  | case3 column rest ih =>
    obtain ⟨⟨count', left'⟩, hrest, heq⟩ := Option.map_eq_some_iff.1 h
    obtain ⟨-, rfl⟩ := Prod.mk.inj heq
    cases inner with
    | nil =>
      obtain ⟨-, rfl⟩ := List.cons.inj hstack
      cases hrest
    | cons frame inner => exact ih (List.cons.inj hstack).2 hrest
  | case4 => cases h

theorem dedent_ne_nil {inner : Option Nat} {stack : List Frame} (h : stack ≠ []) :
    (dedent tok inner stack).2 ≠ [] := by
  fun_induction dedent tok inner stack with
  | case1 | case2 | case3 | case4 => simp
  | case5 inner kind column rest _ _ hrest closed left heq ih =>
    rw [heq] at ih
    exact ih (by simpa using hrest)
  | case6 => exact h

/-- Closing blocks and no bracket leaves the outermost block open, if it leaves any. -/
theorem keepsBody_of_closed (tok : Lexeme) (pending : Option BlockKind)
    {stack closed left : List Frame} (hstack : stack = inner ++ [bottom])
    (hclosed : stack = closed ++ left) (hleft : left ≠ [])
    (hblocks : ∀ frame ∈ closed, frame ≠ .bracket) :
    KeepsBody bottom inner (ends closed.length tok) ⟨left, pending⟩ := by
  obtain ⟨inner', rfl, rfl⟩ := exists_inner_of_append (hstack.symm.trans hclosed) hleft
  exact ⟨inner', rfl, .ends_of_blocks hblocks inner' tok⟩

theorem KeepsBody.refl (state : State) (hstack : state.stack = inner ++ [bottom]) :
    KeepsBody bottom inner [] state :=
  ⟨inner, hstack, .refl inner⟩

theorem KeepsBody.plain {out : List Lexeme} {state next : State} (h : KeepsBody bottom inner out state)
    (htok : tok.token.isVirtual = false)
    (hnext : next.stack = state.stack ∨ next.stack = .bracket :: state.stack) :
    KeepsBody bottom inner (out ++ [tok]) next := by
  obtain ⟨inner', hstack, hout⟩ := h
  rcases hnext with hnext | hnext
  · exact ⟨inner', hnext.trans hstack, hout.trans (.plain htok)⟩
  · refine ⟨.bracket :: inner', by rw [hnext, hstack, List.cons_append], ?_⟩
    exact StaysIn.bracket_iff.2 (hout.trans (.plain htok))

theorem keeps_or_ends_putCloser {stack : List Frame} (hbottom : bottom.isBody = true)
    (hstack : stack = inner ++ [bottom]) (hcloses : tok.token.closesBracket = true) :
    KeepsBody bottom inner (putCloser tok stack).1.lexemes (putCloser tok stack).2 ∨
      EndsBody bottom inner tok (putCloser tok stack).1.lexemes (putCloser tok stack).2 := by
  have htok : tok.token.isVirtual = false := by
    rcases (by simpa [Token.closesBracket] using hcloses : tok.token = .rparen ∨ tok.token = .rbrace)
      with h | h <;> rw [h] <;> rfl
  rw [putCloser]
  split
  · rename_i count kind opening left hclose
    obtain ⟨closed, hclosed, rfl, hblocks⟩ := exists_closed_of_closeInside? hclose
    split
    · rename_i hbrace
      obtain ⟨inner', hleft, rfl⟩ :=
        exists_inner_of_append (hstack.symm.trans hclosed) (List.cons_ne_nil _ _)
      cases inner' with
      | nil =>
        -- The brace is the one of the outermost block itself.
        obtain ⟨rfl, rfl⟩ := List.cons.inj hleft
        exact .inr ⟨hbrace, ⟨kind, opening, rfl⟩, rfl, _, _, rfl, rfl, .ends_of_blocks hblocks [] tok⟩
      | cons frame inner' =>
        obtain ⟨rfl, rfl⟩ := List.cons.inj hleft
        exact .inl ⟨inner', rfl, (StaysIn.ends_of_blocks hblocks _ tok).trans (.stop (by simp) rfl)⟩
    · have hkeeps := keepsBody_of_closed tok none hstack hclosed (List.cons_ne_nil _ _) hblocks
      exact .inl (hkeeps.plain htok (.inl rfl))
  · rename_i count frame left hframe hclose
    obtain ⟨closed, hclosed, rfl, hblocks⟩ := exists_closed_of_closeInside? hclose
    obtain rfl := eq_bracket_of_closeInside? hclose hframe
    obtain ⟨inner', hleft, rfl⟩ :=
      exists_inner_of_append (hstack.symm.trans hclosed) (List.cons_ne_nil _ _)
    cases inner' with
    | nil =>
      obtain ⟨rfl, rfl⟩ := List.cons.inj hleft
      cases hbottom
    | cons frame inner' =>
      obtain ⟨rfl, rfl⟩ := List.cons.inj hleft
      have hends : StaysIn _ _ inner' := StaysIn.bracket_iff.1 (.ends_of_blocks hblocks _ tok)
      exact .inl ⟨inner', rfl, hends.trans (.plain htok)⟩
  · exact .inl ((KeepsBody.refl ⟨stack, none⟩ hstack).plain htok (.inl rfl))

theorem keeps_or_ends_put (opened : Bool) {stack : List Frame} (hbottom : bottom.isBody = true)
    (hstack : stack = inner ++ [bottom]) (htok : tok.token.isVirtual = false) :
    KeepsBody bottom inner (put tok opened stack).1.lexemes (put tok opened stack).2 ∨
      EndsBody bottom inner tok (put tok opened stack).1.lexemes (put tok opened stack).2 := by
  rcases put_cases tok opened stack with
    ⟨-, count, left, hlet, hput⟩ | ⟨hcloses, hput⟩ | ⟨-, -, moved, left, hmoved, hput⟩
  · rw [hput]
    rcases hlet with hclose | ⟨-, rfl, rfl⟩
    · have hleft : left ≠ [] := ne_nil_of_closeLet? hbottom (hstack ▸ hclose)
      obtain ⟨closed, hclosed, rfl, hblocks⟩ := exists_closed_of_closeLet? hclose
      have hkeeps := keepsBody_of_closed tok none hstack hclosed hleft hblocks
      exact .inl (hkeeps.plain htok (.inl rfl))
    · exact .inl ((KeepsBody.refl ⟨_, none⟩ hstack).plain htok (.inl rfl))
  · rw [hput]
    exact keeps_or_ends_putCloser hbottom hstack hcloses
  · have hkeeps : KeepsBody bottom inner moved.lexemes ⟨left, none⟩ := by
      rcases hmoved with hmoved | ⟨rfl, rfl⟩
      · obtain ⟨closed, left', seps, hclosed, hleft, himplicit, hseps, hout⟩ := dedent_cases tok none stack
        have hne : (dedent tok none stack).2 ≠ [] := dedent_ne_nil (by simp [hstack])
        obtain ⟨rfl, rfl⟩ := Prod.mk.inj hmoved
        rw [hleft] at hne ⊢
        have hblocks : ∀ frame ∈ closed, frame ≠ .bracket := by
          rintro frame hframe rfl
          obtain ⟨kind, column, heq⟩ := himplicit _ hframe
          cases heq
        obtain ⟨inner', hinner, hends⟩ :=
          keepsBody_of_closed tok none hstack hclosed hne hblocks
        rw [hout]
        refine ⟨inner', hinner, hends.trans ?_⟩
        rcases hseps with rfl | rfl
        · exact .refl inner'
        · exact .sep rfl
      · exact .refl _ hstack
    rw [hput, TokenStream.lexemes_append]
    refine .inl (hkeeps.plain htok ?_)
    rw [putPlain]
    split
    · exact .inr rfl
    · exact .inr rfl
    · exact .inl rfl

theorem keeps_or_ends_step {state : State} (hbottom : bottom.isBody = true)
    (hstack : state.stack = inner ++ [bottom]) (htok : tok.token.isVirtual = false) :
    KeepsBody bottom inner (step state tok).1.lexemes (step state tok).2 ∨
      EndsBody bottom inner tok (step state tok).1.lexemes (step state tok).2 := by
  rcases step_cases state tok with ⟨kind, -, -, hstep⟩ | ⟨-, opened, hstep⟩
  · rw [hstep, hstack]
    exact .inl ⟨.braced kind tok.span :: inner, rfl, .start _ (by simp) rfl⟩
  · -- The block that was announced opens and stays open, or opens and ends at once.
    have hlead : ∃ inner', reach state tok = inner' ++ [bottom] ∧
        StaysIn inner (lead state tok) inner' := by
      rw [reach, lead]
      split
      · rename_i kind _
        split
        · exact ⟨.implicit kind tok.column :: inner, by rw [hstack, List.cons_append],
            .start _ (by simp) rfl⟩
        · exact ⟨inner, hstack, .empty rfl rfl⟩
      · exact ⟨inner, hstack, .refl inner⟩
    obtain ⟨inner', hreach, hlead⟩ := hlead
    rw [hstep, TokenStream.lexemes_append]
    exact (keeps_or_ends_put opened hbottom hreach htok).imp (·.lead hlead) (·.lead hlead)

end

/-! ## Many steps -/

/-- What of a program is left when nothing is open any more. -/
def behind : State → List Lexeme → List Lexeme
  | _, [] => []
  | state, tok :: toks =>
    if (step state tok).2.stack = [] then toks else behind (step state tok).2 toks

theorem KeepsBody.behind_cons {bottom : Frame} {inner : List Frame} {out toks : List Lexeme}
    {state : State} {tok : Lexeme} (h : KeepsBody bottom inner out (step state tok).2) :
    behind state (tok :: toks) = behind (step state tok).2 toks := by
  obtain ⟨inner', hstack, -⟩ := h
  rw [behind, if_neg (by simp [hstack])]

/-- The outermost block is open up to the end of a program, or a brace ends it. -/
theorem keeps_or_ends_steps {bottom : Frame} {inner : List Frame} {state : State}
    {toks : List Lexeme} (hbottom : bottom.isBody = true) (hstack : state.stack = inner ++ [bottom])
    (htoks : ∀ tok ∈ toks, tok.token.isVirtual = false) :
    (behind state toks = [] ∧
      KeepsBody bottom inner (steps state toks).1.lexemes (steps state toks).2) ∨
    ∃ read closing, toks = read ++ [closing] ++ behind state toks ∧
      EndsBody bottom inner closing (steps state (read ++ [closing])).1.lexemes
        (steps state (read ++ [closing])).2 := by
  induction toks generalizing state inner with
  | nil => exact .inl ⟨rfl, .refl state hstack⟩
  | cons tok toks ih =>
    obtain ⟨htok, htoks⟩ := List.forall_mem_cons.1 htoks
    rcases keeps_or_ends_step hbottom hstack htok with hkeeps | hends
    · obtain ⟨inner', hnext, hout⟩ := hkeeps.exists_inner
      rw [hkeeps.behind_cons]
      rcases ih hnext htoks with ⟨hbehind, hrest⟩ | ⟨read, closing, heq, hrest⟩
      · exact .inl ⟨hbehind, hrest.lead hout⟩
      · refine .inr ⟨tok :: read, closing, ?_, hrest.lead hout⟩
        rw [List.cons_append, List.cons_append, ← heq]
    · refine .inr ⟨[], tok, ?_, ?_⟩
      · rw [behind, if_pos (by rw [hends.next_eq]), List.nil_append, List.singleton_append]
      · have hlexemes : (steps state [tok]).1.lexemes = (step state tok).1.lexemes := by
          rw [steps_cons, TokenStream.lexemes_append]
          exact List.append_nil _
        rw [List.nil_append, hlexemes]
        exact hends

/-- The first token opens the file body, in braces if it is a brace. -/
theorem exists_bottom_step {tok : Lexeme} (htok : tok.token.isVirtual = false) :
    ∃ bottom start out, bottom.isBody = true ∧
      ((∃ kind opening, bottom = .braced kind opening) → tok.token = .lbrace) ∧
      (step .initial tok).1.lexemes = start :: out ∧ start.token = .blockStart ∧
      KeepsBody bottom [] out (step .initial tok).2 := by
  by_cases hbrace : tok.token = .lbrace
  · have hstep : step .initial tok = (⟨[{ tok with token := .blockStart, lineStart := false }], []⟩,
        ⟨[.braced .body tok.span], none⟩) := by
      simp [step, State.initial, hbrace]
    refine ⟨.braced .body tok.span, _, [], rfl, fun _ => hbrace, congrArg (·.1.lexemes) hstep, rfl, ?_⟩
    rw [hstep]
    exact .refl _ rfl
  · have hstep : step .initial tok = (⟨[.marker .blockStart tok], []⟩ ++
        (put tok true [.implicit .body tok.column]).1, (put tok true [.implicit .body tok.column]).2) := by
      simp [step, State.initial, hbrace, hasItems]
    have hstack : [Frame.implicit .body tok.column] = [] ++ [.implicit .body tok.column] := rfl
    rcases keeps_or_ends_put true rfl hstack htok with hkeeps | hends
    · refine ⟨.implicit .body tok.column, .marker .blockStart tok, _, rfl, ?_,
        congrArg (·.1.lexemes) hstep, rfl, ?_⟩
      · rintro ⟨kind, opening, heq⟩
        cases heq
      · rw [hstep]
        exact hkeeps
    · obtain ⟨kind, opening, heq⟩ := hends.isBraced
      cases heq

/-! ## Whole programs -/

/-- At the end of file the outermost block is closed last. -/
theorem exists_stop_finish {bottom : Frame} {inner : List Frame} {state : State}
    (hbottom : bottom.isBody = true) (hstack : state.stack = inner ++ [bottom]) (eof : Lexeme) :
    ∃ body stop, (finish state eof).lexemes = body ++ [stop] ++ [eof] ∧ stop.token = .blockEnd ∧
      LaidOut [] (body ++ [stop]) ∧ StaysIn inner body [] := by
  have hclose : (closeAll eof state.stack).lexemes =
      ends (blockCount inner) eof ++ [.marker .blockEnd eof] := by
    have hcount : (enclosures state.stack).count .block = blockCount inner + 1 := by
      rw [hstack, ← blockCount, blockCount_append, blockCount_cons _ (Frame.ne_bracket_of_isBody hbottom),
        blockCount_nil, Nat.zero_add]
    rw [lexemes_closeAll, hcount, ends, List.replicate_succ']
    rfl
  have hends : StaysIn inner (ends (blockCount inner) eof) [] := by
    simpa using StaysIn.ends inner [] eof
  obtain ⟨out, hout, hlaid⟩ := LaidOut.finish state eof
  have hfinish : ∃ markers, (finish state eof).lexemes =
      markers ++ (closeAll eof state.stack).lexemes ++ [eof] ∧ StaysIn inner markers inner := by
    cases hpending : state.pending with
    | none => exact ⟨[], by simp [finish, hpending], .refl inner⟩
    | some kind =>
      exact ⟨.marker .blockStart eof :: ends 1 eof, by simp [finish, hpending], .empty rfl rfl⟩
  obtain ⟨markers, hfinish, hmarkers⟩ := hfinish
  refine ⟨markers ++ ends (blockCount inner) eof, .marker .blockEnd eof, ?_, rfl, ?_, hmarkers.trans hends⟩
  · rw [hfinish, hclose]
    simp
  · have heq : out = markers ++ (closeAll eof state.stack).lexemes :=
      List.append_cancel_right (hout.symm.trans hfinish)
    rw [hclose, ← List.append_assoc] at heq
    rwa [← heq]

theorem lexemes_step_outside (tok : Lexeme) : (step ⟨[], none⟩ tok).1.lexemes = [tok] := by
  rcases put_cases tok false [] with
    ⟨-, count, left, hlet, hput⟩ | ⟨-, hput⟩ | ⟨-, -, moved, left, hmoved, hput⟩
  · rcases hlet with hlet | ⟨-, rfl, -⟩
    · cases hlet
    · exact congrArg (·.1.lexemes) hput
  · exact congrArg (·.1.lexemes) hput
  · have hmoved : moved = .empty := by
      rcases hmoved with hmoved | ⟨rfl, -⟩
      · exact (Prod.mk.inj hmoved).1
      · rfl
    rw [hmoved] at hput
    exact congrArg (·.1.lexemes) hput

/-- Where nothing is open, the next token is put out first. -/
theorem exists_after (left : List Lexeme) (eof : Lexeme) : ∃ after,
    (steps ⟨[], none⟩ left).1.lexemes ++ (finish (steps ⟨[], none⟩ left).2 eof).lexemes =
        after ++ [eof] ∧ LaidOut left after ∧ after.head? = left.head? := by
  cases left with
  | nil => exact ⟨[], rfl, .nil, rfl⟩
  | cons tok left =>
    obtain ⟨out, hout, hlaid⟩ := LaidOut.finish (steps ⟨[], none⟩ (tok :: left)).2 eof
    refine ⟨(steps ⟨[], none⟩ (tok :: left)).1.lexemes ++ out, ?_, ?_, ?_⟩
    · rw [hout, List.append_assoc]
    · simpa using (LaidOut.steps ⟨[], none⟩ (tok :: left)).append hlaid
    · rw [steps_cons, TokenStream.lexemes_append, lexemes_step_outside]
      rfl

/-- The file body of a program is `read`, and `left` stands behind it. They are
put out as `block` and `after`. -/
structure FileBody (read left block after : List Lexeme) : Prop where
  isBlock : ∃ start body stop, block = start :: (body ++ [stop]) ∧ start.token = .blockStart ∧
    stop.token = .blockEnd ∧ blocksClose true 0 body = true
  inside : LaidOut read block
  outside : LaidOut left after
  first : after.head? = left.head?
  braces : left ≠ [] → ∃ opening contents closing, read = opening :: (contents ++ [closing]) ∧
    opening.token = .lbrace ∧ closing.token = .rbrace

/-- Resolved layout is the file body as a block, and what stands behind it. -/
theorem exists_fileBody {toks : List Lexeme} (hvirtual : ∀ tok ∈ toks, tok.token.isVirtual = false) :
    ∃ read block after eof, program toks = read ++ behind .initial (program toks) ∧
      (resolve toks).lexemes = block ++ (after ++ [eof]) ∧ eof.token = .eof ∧
      FileBody read (behind .initial (program toks)) block after := by
  obtain ⟨eof, heof, hresolve⟩ := resolve_eq toks
  have hprogram : ∀ tok ∈ program toks, tok.token.isVirtual = false := fun tok htok =>
    hvirtual tok (program_subset htok)
  rw [hresolve, TokenStream.lexemes_append]
  generalize program toks = raws at hprogram
  cases raws with
  | nil =>
    refine ⟨[], [.marker .blockStart eof, .marker .blockEnd eof], [], eof, rfl, rfl, heof, ?_⟩
    refine ⟨⟨_, [], _, rfl, rfl, rfl, rfl⟩, ?_, .nil, rfl, fun h => absurd rfl h⟩
    exact (LaidOut.ends 1 eof).marker rfl
  | cons tok raws =>
    obtain ⟨htok, hraws⟩ := List.forall_mem_cons.1 hprogram
    obtain ⟨bottom, start, out, hbottom, hbraced, hstep, hstart, hkeeps⟩ := exists_bottom_step htok
    obtain ⟨inner, hstack, hout⟩ := hkeeps.exists_inner
    rw [hkeeps.behind_cons]
    rcases keeps_or_ends_steps hbottom hstack hraws with ⟨hbehind, hrest⟩ | ⟨read, closing, heq, hends⟩
    · -- The file body is open up to the end of file.
      obtain ⟨inner', hlast, hrest⟩ := hrest.exists_inner
      obtain ⟨body, stop, hfinish, hstop, hlaid, hbody⟩ := exists_stop_finish hbottom hlast eof
      rw [hbehind]
      refine ⟨tok :: raws, start :: (out ++ (steps (step .initial tok).2 raws).1.lexemes ++ body ++ [stop]),
        [], eof, (List.append_nil _).symm, ?_, heof, ?_⟩
      · rw [steps_cons, TokenStream.lexemes_append, hstep, hfinish]
        simp
      · refine ⟨⟨start, _, stop, rfl, hstart, hstop, ((hout.trans hrest).trans hbody).closes⟩, ?_, .nil, rfl,
          fun h => absurd rfl h⟩
        have hall := (LaidOut.steps .initial (tok :: raws)).append hlaid
        rw [steps_cons, TokenStream.lexemes_append, hstep] at hall
        simpa using hall
    · -- A brace ends the file body.
      obtain ⟨hbrace, hisBraced, hnext, body, stop, hlexemes, hstop, hbody⟩ := hends
      generalize behind (step .initial tok).2 raws = left at heq
      obtain ⟨after, hafter, houtside, hfirst⟩ := exists_after left eof
      have hblock : (steps .initial (tok :: (read ++ [closing]))).1.lexemes =
          start :: (out ++ body ++ [stop]) := by
        rw [steps_cons, TokenStream.lexemes_append, hstep, hlexemes]
        simp
      refine ⟨tok :: (read ++ [closing]), start :: (out ++ body ++ [stop]), after, eof, ?_, ?_, heof, ?_⟩
      · rw [heq, List.cons_append]
      · have hsplit := steps_append .initial (tok :: (read ++ [closing])) left
        have hstate : (steps .initial (tok :: (read ++ [closing]))).2 = ⟨[], none⟩ := hnext
        rw [hstate, List.cons_append, ← heq] at hsplit
        rw [hsplit, TokenStream.lexemes_append, hblock, List.append_assoc, hafter]
      · refine ⟨⟨start, _, stop, rfl, hstart, hstop, (hout.trans hbody).closes⟩, ?_, houtside, hfirst,
          fun _ => ⟨tok, read, closing, rfl, hbraced hisBraced, hbrace⟩⟩
        rw [← hblock]
        exact LaidOut.steps .initial _

end Layout

end Offside
