-- SUMMARY: What is open at each token of resolved layout, and how its blocks close.
import Mathlib.Data.List.Count
import Offside.Cursor
import Offside.Proofs.Layout.Keeps

/-! # Blocks in resolved layout

However the brackets of a text are mismatched, layout resolution closes the
blocks that it opens. `Moves` says what each token does to what is open, and
`Rest` what may follow until the end of file, where brackets that are left open
end without a token of their own. -/

namespace Offside

/-! ## Blocks that close -/

/-- Whether tokens close the `depth` blocks that are open before them and all
those that they open. `own` says whether separators may stand outside of these
blocks. -/
def blocksClose (own : Bool) : (depth : Nat) → List Lexeme → Bool
  | depth, [] => depth = 0
  | depth, tok :: toks =>
    match tok.token with
    | .blockStart => blocksClose own (depth + 1) toks
    | .blockSep => (own || 0 < depth) && blocksClose own depth toks
    | .blockEnd => 0 < depth && blocksClose own (depth - 1) toks
    | _ => blocksClose own depth toks

/-- A token is one of the three markers of blocks, or none. -/
theorem Token.marker_cases (t : Token) :
    t = .blockStart ∨ t = .blockSep ∨ t = .blockEnd ∨ t.isVirtual = false := by
  cases t <;> simp [isVirtual]

section

variable {own : Bool} {depth k : Nat} {tok : Lexeme} {toks rest : List Lexeme}

@[simp] theorem blocksClose_nil : blocksClose own depth [] = true ↔ depth = 0 := by
  simp [blocksClose]

theorem blocksClose_start (h : tok.token = .blockStart) :
    blocksClose own depth (tok :: toks) = blocksClose own (depth + 1) toks := by
  simp [blocksClose, h]

theorem blocksClose_sep (h : tok.token = .blockSep) : blocksClose own depth (tok :: toks) = true ↔
    (own = true ∨ 0 < depth) ∧ blocksClose own depth toks = true := by
  simp [blocksClose, h]

theorem blocksClose_end (h : tok.token = .blockEnd) : blocksClose own depth (tok :: toks) = true ↔
    0 < depth ∧ blocksClose own (depth - 1) toks = true := by
  simp [blocksClose, h]

theorem blocksClose_plain (h : tok.token.isVirtual = false) :
    blocksClose own depth (tok :: toks) = blocksClose own depth toks := by
  rw [blocksClose]
  split <;> simp_all [Token.isVirtual]

/-- What closes the blocks in it may have separators around. -/
theorem blocksClose_append (h : blocksClose false depth toks = true)
    (hrest : blocksClose own 0 rest = true) : blocksClose own depth (toks ++ rest) = true := by
  induction toks generalizing depth with
  | nil =>
    obtain rfl := blocksClose_nil.1 h
    exact hrest
  | cons tok toks ih =>
    rw [List.cons_append]
    rcases tok.token.marker_cases with ht | ht | ht | ht
    · rw [blocksClose_start ht] at h ⊢
      exact ih h
    · obtain ⟨hdepth, h⟩ := (blocksClose_sep ht).1 h
      exact (blocksClose_sep ht).2 ⟨.inr (by simpa using hdepth), ih h⟩
    · obtain ⟨hdepth, h⟩ := (blocksClose_end ht).1 h
      exact (blocksClose_end ht).2 ⟨hdepth, ih h⟩
    · rw [blocksClose_plain ht] at h ⊢
      exact ih h

/-- The end of an open block, before which everything inside it is closed. -/
theorem exists_blockEnd (h : blocksClose own (k + 1 + depth) toks = true) :
    ∃ body stop rest, toks = body ++ stop :: rest ∧ stop.token = .blockEnd ∧
      blocksClose true k body = true ∧ blocksClose own depth rest = true := by
  induction toks generalizing k with
  | nil => simp at h
  | cons tok toks ih =>
    rcases tok.token.marker_cases with ht | ht | ht | ht
    · rw [blocksClose_start ht, show k + 1 + depth + 1 = k + 1 + 1 + depth by omega] at h
      obtain ⟨body, stop, rest, rfl, hstop, hbody, hrest⟩ := ih h
      exact ⟨tok :: body, stop, rest, rfl, hstop, by rwa [blocksClose_start ht], hrest⟩
    · obtain ⟨body, stop, rest, rfl, hstop, hbody, hrest⟩ := ih ((blocksClose_sep ht).1 h).2
      exact ⟨tok :: body, stop, rest, rfl, hstop, (blocksClose_sep ht).2 ⟨.inl rfl, hbody⟩, hrest⟩
    · obtain ⟨-, h⟩ := (blocksClose_end ht).1 h
      cases k with
      | zero =>
        rw [show 0 + 1 + depth - 1 = depth by omega] at h
        exact ⟨[], tok, toks, rfl, ht, by simp, h⟩
      | succ k =>
        rw [show k + 1 + 1 + depth - 1 = k + 1 + depth by omega] at h
        obtain ⟨body, stop, rest, rfl, hstop, hbody, hrest⟩ := ih h
        exact ⟨tok :: body, stop, rest, rfl, hstop,
          (blocksClose_end ht).2 ⟨by omega, hbody⟩, hrest⟩
    · rw [blocksClose_plain ht] at h
      obtain ⟨body, stop, rest, rfl, hstop, hbody, hrest⟩ := ih h
      exact ⟨tok :: body, stop, rest, rfl, hstop, by rwa [blocksClose_plain ht], hrest⟩

/-- The contents of a block up to its first own separator. -/
theorem exists_segment (h : blocksClose true depth toks = true) :
    ∃ segment rest, toks = segment ++ rest ∧ blocksClose false depth segment = true ∧
      (rest = [] ∨ ∃ sep others, rest = sep :: others ∧ sep.token = .blockSep ∧
        blocksClose true 0 others = true) := by
  induction toks generalizing depth with
  | nil => exact ⟨[], [], rfl, by simpa using h, .inl rfl⟩
  | cons tok toks ih =>
    rcases tok.token.marker_cases with ht | ht | ht | ht
    · rw [blocksClose_start ht] at h
      obtain ⟨segment, rest, rfl, hsegment, hrest⟩ := ih h
      exact ⟨tok :: segment, rest, rfl, by rwa [blocksClose_start ht], hrest⟩
    · obtain ⟨-, h⟩ := (blocksClose_sep ht).1 h
      cases depth with
      | zero => exact ⟨[], tok :: toks, rfl, by simp, .inr ⟨tok, toks, rfl, ht, h⟩⟩
      | succ depth =>
        obtain ⟨segment, rest, rfl, hsegment, hrest⟩ := ih h
        exact ⟨tok :: segment, rest, rfl, (blocksClose_sep ht).2 ⟨.inr (by omega), hsegment⟩, hrest⟩
    · obtain ⟨hdepth, h⟩ := (blocksClose_end ht).1 h
      obtain ⟨segment, rest, rfl, hsegment, hrest⟩ := ih h
      exact ⟨tok :: segment, rest, rfl, (blocksClose_end ht).2 ⟨hdepth, hsegment⟩, hrest⟩
    · rw [blocksClose_plain ht] at h
      obtain ⟨segment, rest, rfl, hsegment, hrest⟩ := ih h
      exact ⟨tok :: segment, rest, rfl, by rwa [blocksClose_plain ht], hrest⟩

end

namespace Layout

/-! ## What is open -/

/-- What can be open in a program. -/
inductive Enclosure where
  | block
  | bracket
  deriving DecidableEq

/-- What a frame stands for, its column and its opening brace aside. -/
def Frame.enclosure : Frame → Enclosure
  | .bracket => .bracket
  | _ => .block

/-- What is open on a stack, innermost first. -/
def enclosures (stack : List Frame) : List Enclosure := stack.map Frame.enclosure

theorem enclosures_append (inner outer : List Frame) :
    enclosures (inner ++ outer) = enclosures inner ++ enclosures outer := List.map_append

theorem enclosures_of_blocks {frames : List Frame} (h : ∀ frame ∈ frames, frame ≠ .bracket) :
    enclosures frames = List.replicate frames.length .block := by
  refine List.eq_replicate_iff.2 ⟨List.length_map _, fun e he => ?_⟩
  obtain ⟨frame, hframe, rfl⟩ := List.mem_map.1 he
  cases frame with
  | implicit | braced => rfl
  | bracket => exact absurd rfl (h _ hframe)

/-- A token with what is open before and after it. A block end closes a block
and nothing else, and a separator belongs to the innermost block. A closing
bracket may close none. -/
inductive Moves : List Enclosure → Token → List Enclosure → Prop
  | start {outer} : Moves outer .blockStart (.block :: outer)
  | sep {outer} : Moves (.block :: outer) .blockSep (.block :: outer)
  | stop {outer} : Moves (.block :: outer) .blockEnd outer
  | opening {outer t} (isOpening : t = .lparen ∨ t = .lbrace) : Moves outer t (.bracket :: outer)
  | closing {outer t} (isClosing : t.closesBracket = true) : Moves (.bracket :: outer) t outer
  | stray {outer t} (isClosing : t.closesBracket = true) : Moves outer t outer
  | plain {outer t} (notVirtual : t.isVirtual = false) (notOpener : t.isOpener = false)
      (notCloser : t.isCloser = false) : Moves outer t outer

/-- What may follow in resolved layout up to the end of file. What is open there
is closed by the ends of its blocks alone. -/
inductive Rest : List Enclosure → List Lexeme → Prop
  | close {outer toks} (areEnds : ∀ tok ∈ toks, tok.token = .blockEnd)
      (length_eq : toks.length = outer.count .block) : Rest outer toks
  | cons {outer outer' tok toks} (moves : Moves outer tok.token outer') (rest : Rest outer' toks) :
      Rest outer (tok :: toks)

/-- Blocks without braces are closed, and the bracket or brace around them is not. -/
theorem ne_implicit_of_closeInside? {stack left : List Frame} {frame : Frame} {count : Nat}
    (h : closeInside? stack = some (count, frame :: left)) (kind : BlockKind) (column : Nat) :
    frame ≠ .implicit kind column := by
  fun_induction closeInside? stack generalizing count with
  | case1 => simp at h
  | case2 _ _ rest ih =>
    obtain ⟨count, left', hrest, -, rfl⟩ : ∃ n left', closeInside? rest = some (n, left') ∧
        n + 1 = count ∧ left' = frame :: left := by simpa [Option.map_eq_some_iff] using h
    exact ih hrest
  | case3 _ _ hne =>
    rintro rfl
    obtain ⟨-, rfl⟩ : 0 = count ∧ _ = Frame.implicit kind column :: left := by simpa using h
    exact hne _ _ _ rfl

theorem eq_bracket_of_closeInside? {stack left : List Frame} {frame : Frame} {count : Nat}
    (h : closeInside? stack = some (count, frame :: left))
    (hframe : ∀ kind opening, frame ≠ .braced kind opening) : frame = .bracket := by
  cases frame with
  | implicit kind column => exact absurd rfl (ne_implicit_of_closeInside? h kind column)
  | braced kind opening => exact absurd rfl (hframe kind opening)
  | bracket => rfl

/-- At the end of file every open block gets its end. -/
theorem lexemes_closeAll (eof : Lexeme) (stack : List Frame) :
    (closeAll eof stack).lexemes = ends ((enclosures stack).count .block) eof := by
  induction stack with
  | nil => rfl
  | cons frame stack ih =>
    cases frame <;>
      simp [closeAll, ih, ends, enclosures, Frame.enclosure, List.replicate_succ]

namespace Rest

variable {outer : List Enclosure} {toks : List Lexeme} {tok : Lexeme}

theorem ends (h : Rest outer toks) (count : Nat) (tok : Lexeme) :
    Rest (List.replicate count .block ++ outer) (ends count tok ++ toks) := by
  induction count with
  | zero => exact h
  | succ count ih => exact .cons .stop ih

/-- What is closed without a bracket among it is as many blocks. -/
theorem closed {closed left : List Frame} (h : Rest (enclosures left) toks)
    (hclosed : ∀ frame ∈ closed, frame ≠ .bracket) (tok : Lexeme) :
    Rest (enclosures (closed ++ left)) (Layout.ends closed.length tok ++ toks) := by
  rw [enclosures_append, enclosures_of_blocks hclosed]
  exact h.ends closed.length tok

/-! ## Steps -/

theorem dedent {tok : Lexeme} {inner : Option Nat} {stack : List Frame}
    (h : Rest (enclosures (dedent tok inner stack).2) toks) :
    Rest (enclosures stack) ((dedent tok inner stack).1.lexemes ++ toks) := by
  fun_induction Layout.dedent tok inner stack with
  | case1 | case2 | case4 => exact .cons .sep h
  | case3 | case6 => exact h
  | case5 inner kind column rest _ _ _ moved left hrest ih =>
    rw [hrest] at ih
    exact .cons .stop (ih h)

theorem closeLet {stack left : List Frame} {count : Nat} (hclose : closeLet? stack = some (count, left))
    (tok : Lexeme) (h : Rest (enclosures left) toks) :
    Rest (enclosures stack) (Layout.ends count tok ++ toks) := by
  obtain ⟨closed, rfl, rfl, hclosed⟩ := exists_closed_of_closeLet? hclose
  exact h.closed hclosed tok

theorem closeInside {stack left : List Frame} {count : Nat}
    (hclose : closeInside? stack = some (count, left)) (tok : Lexeme)
    (h : Rest (enclosures left) toks) :
    Rest (enclosures stack) (Layout.ends count tok ++ toks) := by
  obtain ⟨closed, rfl, rfl, hclosed⟩ := exists_closed_of_closeInside? hclose
  exact h.closed hclosed tok

theorem putCloser {stack : List Frame} (hcloses : tok.token.closesBracket = true)
    (h : Rest (enclosures (putCloser tok stack).2.stack) toks) :
    Rest (enclosures stack) ((putCloser tok stack).1.lexemes ++ toks) := by
  revert h
  rw [Layout.putCloser]
  split
  · rename_i count kind opening left hclose
    split <;> intro h <;> rw [List.append_assoc]
    · exact closeInside hclose tok (.cons .stop h)
    · exact closeInside hclose tok (.cons (.stray hcloses) h)
  · rename_i count frame left hframe hclose
    intro h
    rw [List.append_assoc]
    obtain rfl := eq_bracket_of_closeInside? hclose hframe
    exact closeInside hclose tok (.cons (.closing hcloses) h)
  · exact fun h => .cons (.stray hcloses) h

theorem putPlain {stack : List Frame} (hvirtual : tok.token.isVirtual = false)
    (hcloses : tok.token.closesBracket = false)
    (h : Rest (enclosures (putPlain tok stack).2.stack) toks) :
    Rest (enclosures stack) ((putPlain tok stack).1.lexemes ++ toks) := by
  revert h
  rw [Layout.putPlain]
  split
  · exact fun h => .cons (.opening (.inl ‹_›)) h
  · exact fun h => .cons (.opening (.inr ‹_›)) h
  · rename_i hparen hbrace
    refine fun h => .cons (.plain hvirtual ?_ ?_) h
    · cases ht : tok.token <;> simp_all [Token.isOpener, Token.isVirtual]
    · cases ht : tok.token <;> simp_all [Token.isCloser, Token.closesBracket, Token.isVirtual]

theorem put {opened : Bool} {stack : List Frame} (hvirtual : tok.token.isVirtual = false)
    (h : Rest (enclosures (put tok opened stack).2.stack) toks) :
    Rest (enclosures stack) ((put tok opened stack).1.lexemes ++ toks) := by
  rcases put_cases tok opened stack with
    ⟨hin, count, left, hclose, hput⟩ | ⟨hcloses, hput⟩ | ⟨-, hcloses, moved, left, hmoved, hput⟩
  · rw [hput] at h ⊢
    rw [List.append_assoc]
    have hrest : Rest (enclosures left) (tok :: toks) :=
      .cons (.plain hvirtual (by rw [hin]; rfl) (by rw [hin]; rfl)) h
    rcases hclose with hlet | ⟨-, rfl, rfl⟩
    · exact closeLet hlet tok hrest
    · exact hrest
  · rw [hput] at h ⊢
    exact putCloser hcloses h
  · rw [hput] at h ⊢
    rw [TokenStream.lexemes_append, List.append_assoc]
    have hplaced := putPlain hvirtual hcloses h
    rcases hmoved with hmoved | ⟨rfl, rfl⟩
    · obtain ⟨rfl, rfl⟩ := Prod.mk.inj hmoved
      exact dedent hplaced
    · exact hplaced

theorem step {state : State} (hvirtual : tok.token.isVirtual = false)
    (h : Rest (enclosures (step state tok).2.stack) toks) :
    Rest (enclosures state.stack) ((step state tok).1.lexemes ++ toks) := by
  rcases step_cases state tok with ⟨kind, -, -, hstep⟩ | ⟨-, opened, hstep⟩
  · rw [hstep] at h ⊢
    exact .cons .start h
  · rw [hstep] at h ⊢
    rw [TokenStream.lexemes_append, List.append_assoc]
    have hplaced := put hvirtual h
    obtain ⟨stack, pending⟩ := state
    cases pending with
    | none => exact hplaced
    | some kind =>
      cases hitems : hasItems stack tok with
      | true =>
        simp only [reach, lead, hitems, if_true] at hplaced ⊢
        exact .cons .start hplaced
      | false =>
        simp only [reach, lead, hitems] at hplaced ⊢
        exact .cons .start (.cons .stop hplaced)

theorem steps {state : State} {raws : List Lexeme}
    (hvirtual : ∀ tok ∈ raws, tok.token.isVirtual = false)
    (h : Rest (enclosures (steps state raws).2.stack) toks) :
    Rest (enclosures state.stack) ((steps state raws).1.lexemes ++ toks) := by
  induction raws generalizing state with
  | nil => exact h
  | cons tok raws ih =>
    rw [steps_cons] at h ⊢
    rw [TokenStream.lexemes_append, List.append_assoc]
    obtain ⟨htok, hraws⟩ := List.forall_mem_cons.1 hvirtual
    exact step htok (ih hraws h)

theorem closeAll (eof : Lexeme) (stack : List Frame) :
    Rest (enclosures stack) (closeAll eof stack).lexemes := by
  rw [lexemes_closeAll]
  refine .close (fun tok htok => ?_) (by simp [Layout.ends])
  rw [List.eq_of_mem_replicate htok]
  rfl

theorem exists_finish (eof : Lexeme) (state : State) :
    ∃ out, (finish state eof).lexemes = out ++ [eof] ∧ Rest (enclosures state.stack) out := by
  have hclose := closeAll eof state.stack
  cases hpending : state.pending with
  | none => exact ⟨_, by simp [finish, hpending], hclose⟩
  | some kind =>
    refine ⟨.marker .blockStart eof :: .marker .blockEnd eof ::
      (Layout.closeAll eof state.stack).lexemes, ?_, .cons .start (.cons .stop hclose)⟩
    simp [finish, hpending, Layout.ends]

end Rest

/-- The first token of a program opens the file body. -/
theorem exists_start_step (tok : Lexeme) :
    ∃ start toks, (step .initial tok).1.lexemes = start :: toks ∧ start.token = .blockStart := by
  rcases step_cases .initial tok with ⟨kind, -, -, hstep⟩ | ⟨-, opened, hstep⟩
  · exact ⟨_, [], by rw [hstep], rfl⟩
  · rw [hstep]
    exact ⟨_, _, rfl, rfl⟩

/-- Resolved layout begins with the start of the file body. -/
theorem exists_start_resolve {pre : List Lexeme} {eof : Lexeme} (heof : eof.token = .eof)
    (hpre : ∀ tok ∈ pre, tok.token ≠ .eof) :
    ∃ start toks, (resolve (pre ++ [eof])).lexemes = start :: toks ∧ start.token = .blockStart := by
  rw [resolve_concat heof hpre]
  cases pre.filter (!·.token.isComment) with
  | nil => exact ⟨_, _, rfl, rfl⟩
  | cons tok toks =>
    obtain ⟨start, others, hstep, hstart⟩ := exists_start_step tok
    rw [steps_cons, TokenStream.lexemes_append, TokenStream.lexemes_append, hstep]
    exact ⟨start, _, rfl, hstart⟩

/-- The lexemes of a program with resolved layout, less the end of file. -/
theorem rest_resolve {pre : List Lexeme} {eof : Lexeme} (heof : eof.token = .eof)
    (hpre : ∀ tok ∈ pre, tok.token ≠ .eof ∧ tok.token.isVirtual = false) :
    ∃ out, (resolve (pre ++ [eof])).lexemes = out ++ [eof] ∧ Rest [] out := by
  rw [resolve_concat heof fun tok htok => (hpre tok htok).1]
  have hvirtual : ∀ tok ∈ pre.filter (!·.token.isComment), tok.token.isVirtual = false :=
    fun tok htok => (hpre tok (List.mem_of_mem_filter htok)).2
  obtain ⟨out, hout, hrest⟩ :=
    Rest.exists_finish eof (steps .initial (pre.filter (!·.token.isComment))).2
  have hsteps : Rest (enclosures State.initial.stack) _ := Rest.steps hvirtual hrest
  exact ⟨_, by rw [TokenStream.lexemes_append, hout, List.append_assoc], hsteps⟩

end Layout

end Offside
