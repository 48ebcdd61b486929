-- SUMMARY: Where each lexeme of resolved layout comes from, and what becomes of each token of the program.
import Offside.Proofs.Layout.Blocks

/-! # Origins of lexemes

A lexeme of resolved layout is a token of the program, or a marker that stands
for one of its braces, or a marker without text. `Origin` says which, and what
is open at a place can be read off from the origins before it. That decides
which braces become markers, and nothing else of the program is changed or left
out: `resolve_conserves`. -/

namespace Offside

namespace Layout

/-- Where a lexeme of resolved layout comes from. -/
inductive Origin where
  /-- A token of the program as it is. -/
  | kept (tok : Lexeme)
  /-- A marker for a brace of the program. -/
  | brace (tok : Lexeme)
  /-- A marker of its own, at the place of the token after it. -/
  | inserted (t : Token) (next : Lexeme)

namespace Origin

/-- The lexeme itself. -/
def lexeme : Origin → Lexeme
  | kept tok => tok
  | brace tok =>
    { tok with
      token := if tok.token = .lbrace then .blockStart else .blockEnd
      lineStart := false }
  | inserted t next => .marker t next

/-- The token of the program that it comes from. -/
def source? : Origin → Option Lexeme
  | kept tok | brace tok => some tok
  | inserted _ _ => none

/-- The token of the program that it is. -/
def kept? : Origin → Option Lexeme
  | kept tok => some tok
  | brace _ | inserted _ _ => none

end Origin

/-- What can be open at a place. -/
inductive Opening where
  | indented
  | braced
  | bracket
  deriving DecidableEq

/-- What is open after a lexeme, innermost first. A closing bracket that stays
closes a bracket if that is the innermost, and nothing otherwise. -/
def Origin.openAfter : List Opening → Origin → List Opening
  | outer, .inserted .blockStart _ => .indented :: outer
  | outer, .inserted .blockEnd _ => outer.tail
  | outer, .inserted _ _ => outer
  | outer, .brace tok => if tok.token = .lbrace then .braced :: outer else outer.tail
  | outer, .kept tok =>
    match tok.token, outer with
    | .lparen, _ | .lbrace, _ => .bracket :: outer
    | .rparen, .bracket :: rest | .rbrace, .bracket :: rest => rest
    | _, _ => outer

/-- What is open after a part of resolved layout. -/
def openAt (before : List Origin) : List Opening := before.foldl Origin.openAfter []

/-- The program begins here, or its last token was one that announces a block. -/
def Announcing (before : List Origin) : Prop :=
  ∀ tok ∈ (before.filterMap Origin.source?).getLast?, tok.token = .kwLet ∨ tok.token = .kwWhere

/-- The braces that become markers: an opening one directly where a block is
announced, and a closing one directly in a block that such a brace opened. -/
def BecomesMarker (before : List Origin) (tok : Lexeme) : Prop :=
  (tok.token = .lbrace ∧ Announcing before) ∨
    (tok.token = .rbrace ∧ (openAt before).head? = some .braced)

/-- The origins of resolved layout when the tokens `raws` of the program are left
and those in `before` are put out. -/
inductive Woven : (before : List Origin) → (raws : List Lexeme) → List Origin → Prop
  | nil {before} : Woven before [] []
  | inserted {before t tok raws os} (isVirtual : t.isVirtual = true)
      (rest : Woven (before ++ [.inserted t tok]) (tok :: raws) os) :
      Woven before (tok :: raws) (.inserted t tok :: os)
  | kept {before tok raws os} (stays : ¬ BecomesMarker before tok)
      (rest : Woven (before ++ [.kept tok]) raws os) : Woven before (tok :: raws) (.kept tok :: os)
  | brace {before tok raws os} (becomes : BecomesMarker before tok)
      (rest : Woven (before ++ [.brace tok]) raws os) :
      Woven before (tok :: raws) (.brace tok :: os)

/-! ## Reading what is open -/

@[simp] theorem openAt_concat (before : List Origin) (o : Origin) :
    openAt (before ++ [o]) = o.openAfter (openAt before) := by
  simp [openAt]

theorem announcing_concat {before : List Origin} {o : Origin} {tok : Lexeme}
    (h : o.source? = some tok) :
    Announcing (before ++ [o]) ↔ tok.token = .kwLet ∨ tok.token = .kwWhere := by
  simp [Announcing, h]

theorem announced_isSome {t : Token} :
    (announced t).isSome = true ↔ t = .kwLet ∨ t = .kwWhere := by
  cases t <;> simp [announced]

/-- A frame as it is read off from the lexemes. -/
def Frame.opening : Frame → Opening
  | .implicit _ _ => .indented
  | .braced _ _ => .braced
  | .bracket => .bracket

/-- What is open in a state, and whether a block is announced, can be read off
from the lexemes that led to it. -/
structure Follows (before : List Origin) (state : State) : Prop where
  openings : openAt before = state.stack.map Frame.opening
  announces : state.pending.isSome = true ↔ Announcing before

namespace Follows

variable {before : List Origin} {tok : Lexeme} {stack : List Frame} {pending : Option BlockKind}

/-- A marker of its own changes what is open, and not what is announced. -/
theorem inserted {t : Token} {stack' : List Frame} (h : Follows before ⟨stack, pending⟩)
    (openings : Origin.openAfter (stack.map Frame.opening) (.inserted t tok) =
      stack'.map Frame.opening) :
    Follows (before ++ [.inserted t tok]) ⟨stack', pending⟩ := by
  refine ⟨?_, h.announces.trans ?_⟩
  · rw [openAt_concat, h.openings, openings]
  · simp [Announcing, Origin.source?]

theorem ends (tok : Lexeme) (h : Follows before ⟨stack, pending⟩) (count : Nat) :
    Follows (before ++ List.replicate count (.inserted .blockEnd tok))
      ⟨stack.drop count, pending⟩ := by
  induction count with
  | zero => simpa using h
  | succ count ih =>
    rw [List.replicate_succ', ← List.append_assoc, ← List.tail_drop]
    exact ih.inserted List.map_tail.symm

end Follows

/-! ## What closes -/

section

variable {stack left : List Frame} {count : Nat}

theorem eq_drop_of_closeLet? (h : closeLet? stack = some (count, left)) :
    left = stack.drop count := by
  obtain ⟨closed, rfl, rfl, -⟩ := exists_closed_of_closeLet? h
  exact List.drop_left.symm

theorem eq_drop_of_closeInside? (h : closeInside? stack = some (count, left)) :
    left = stack.drop count := by
  obtain ⟨closed, rfl, rfl, -⟩ := exists_closed_of_closeInside? h
  exact List.drop_left.symm

/-- Where a closing bracket finds nothing to close, blocks without braces are
open at most. -/
theorem head?_of_not_closeInside?
    (h : ∀ count frame left, closeInside? stack ≠ some (count, frame :: left)) :
    (stack.map Frame.opening).head? = none ∨ (stack.map Frame.opening).head? = some .indented := by
  cases stack with
  | nil => exact .inl rfl
  | cons frame rest =>
    cases frame with
    | implicit kind column => exact .inr rfl
    | braced kind opening => exact absurd rfl (h 0 (.braced kind opening) rest)
    | bracket => exact absurd rfl (h 0 .bracket rest)

end

/-- A closing bracket that stays closes the innermost bracket. -/
theorem openAfter_closer {outer : List Opening} {tok : Lexeme}
    (hcloses : tok.token.closesBracket = true) :
    Origin.openAfter outer (.kept tok) =
      if outer.head? = some .bracket then outer.tail else outer := by
  obtain ht | ht : tok.token = .rparen ∨ tok.token = .rbrace := by
    simpa [Token.closesBracket] using hcloses
  all_goals
    simp only [Origin.openAfter, ht]
    rcases outer with - | ⟨- | - | -, rest⟩ <;> rfl

theorem stays_of_closer {before : List Origin} {tok : Lexeme}
    (hcloses : tok.token.closesBracket = true)
    (hhead : tok.token = .rbrace → (openAt before).head? ≠ some .braced) :
    ¬ BecomesMarker before tok := by
  rintro (⟨ht, -⟩ | ⟨ht, hopen⟩)
  · simp [ht, Token.closesBracket] at hcloses
  · exact hhead ht hopen

/-! ## One token -/

/-- After `before`, the token `tok` is put out as `out`, and `state` follows. -/
def Weaves (before : List Origin) (tok : Lexeme) (out : List Lexeme) (state : State) : Prop :=
  ∃ os, out = os.map Origin.lexeme ∧ Follows (before ++ os) state ∧
    ∀ raws others, Woven (before ++ os) raws others → Woven before (tok :: raws) (os ++ others)

namespace Weaves

variable {before : List Origin} {tok : Lexeme} {out : List Lexeme} {state : State}
  {stack left : List Frame} {pending : Option BlockKind}

/-- A token that stays as it is. -/
theorem kept (stays : ¬ BecomesMarker before tok)
    (openings : Origin.openAfter (openAt before) (.kept tok) = state.stack.map Frame.opening)
    (announces : state.pending = announced tok.token) : Weaves before tok [tok] state := by
  refine ⟨[.kept tok], rfl, ⟨?_, ?_⟩, fun raws others h => .kept stays h⟩
  · rw [openAt_concat, openings]
  · rw [announces, announced_isSome, announcing_concat rfl]

/-- A brace that becomes a marker. -/
theorem brace (becomes : BecomesMarker before tok)
    (openings : Origin.openAfter (openAt before) (.brace tok) = state.stack.map Frame.opening)
    (pending : state.pending = none) : Weaves before tok [(Origin.brace tok).lexeme] state := by
  refine ⟨[.brace tok], rfl, ⟨?_, ?_⟩, fun raws others h => .brace becomes h⟩
  · rw [openAt_concat, openings]
  · rw [pending, announcing_concat rfl]
    rcases becomes with ⟨htok, -⟩ | ⟨htok, -⟩ <;> simp [htok]

/-- A marker of its own before the token. -/
theorem insert {t : Token} (isVirtual : t.isVirtual = true)
    (h : Weaves (before ++ [.inserted t tok]) tok out state) :
    Weaves before tok (.marker t tok :: out) state := by
  obtain ⟨os, rfl, hfollows, hwoven⟩ := h
  rw [List.append_assoc] at hfollows hwoven
  exact ⟨.inserted t tok :: os, rfl, hfollows,
    fun raws others h => .inserted isVirtual (hwoven raws others h)⟩

theorem ends {count : Nat}
    (h : Weaves (before ++ List.replicate count (.inserted .blockEnd tok)) tok out state) :
    Weaves before tok (ends count tok ++ out) state := by
  induction count generalizing before with
  | zero =>
    rw [List.replicate_zero, List.append_nil] at h
    exact h
  | succ count ih =>
    refine insert rfl (ih ?_)
    rwa [List.append_assoc]

theorem dedent {inner : Option Nat} (hbefore : Follows before ⟨stack, pending⟩)
    (h : ∀ before', Follows before' ⟨(dedent tok inner stack).2, pending⟩ →
      Weaves before' tok out state) :
    Weaves before tok ((dedent tok inner stack).1.lexemes ++ out) state := by
  obtain ⟨closed, left, seps, rfl, hleft, -, hseps, hput⟩ := dedent_cases tok inner stack
  have hclosed := hbefore.ends tok closed.length
  rw [List.drop_left] at hclosed
  rw [hleft] at h
  rw [hput, List.append_assoc]
  apply ends
  rcases hseps with rfl | rfl
  · exact h _ hclosed
  · exact insert rfl (h _ (hclosed.inserted rfl))

/-- A closing bracket becomes a marker if it is a brace and a brace opened the
block that it closes. -/
theorem putCloser (hcloses : tok.token.closesBracket = true)
    (hbefore : Follows before ⟨stack, pending⟩) :
    Weaves before tok (putCloser tok stack).1.lexemes (putCloser tok stack).2 := by
  have hannounced : none = announced tok.token := by
    cases ht : tok.token <;> simp_all [Token.closesBracket, announced]
  rw [Layout.putCloser]
  split
  · rename_i count kind opening left hclose
    have hopen : openAt (before ++ List.replicate count (.inserted .blockEnd tok)) =
        .braced :: left.map Frame.opening := by
      rw [(hbefore.ends tok count).openings, ← eq_drop_of_closeInside? hclose]
      rfl
    split
    · rename_i hbrace
      have hmarker : { tok with token := .blockEnd, lineStart := false } =
          (Origin.brace tok).lexeme := by simp [Origin.lexeme, hbrace]
      rw [hmarker]
      refine ends (brace (.inr ⟨hbrace, by rw [hopen]; rfl⟩) ?_ rfl)
      simp [hopen, Origin.openAfter, hbrace]
    · rename_i hbrace
      refine ends (kept (stays_of_closer hcloses fun ht => absurd ht hbrace) ?_ hannounced)
      rw [openAfter_closer hcloses, hopen]
      rfl
  · rename_i count frame left hframe hclose
    obtain rfl := eq_bracket_of_closeInside? hclose hframe
    have hopen : openAt (before ++ List.replicate count (.inserted .blockEnd tok)) =
        .bracket :: left.map Frame.opening := by
      rw [(hbefore.ends tok count).openings, ← eq_drop_of_closeInside? hclose]
      rfl
    refine ends (kept (stays_of_closer hcloses fun _ => by simp [hopen]) ?_ hannounced)
    rw [openAfter_closer hcloses, hopen]
    rfl
  · rename_i hnone
    have hhead := head?_of_not_closeInside? hnone
    rw [← hbefore.openings] at hhead
    refine kept (stays_of_closer hcloses fun _ => ?_) ?_ hannounced
    · rcases hhead with hhead | hhead <;> simp [hhead]
    · rw [openAfter_closer hcloses, if_neg (by rcases hhead with hhead | hhead <;> simp [hhead])]
      exact hbefore.openings

/-- A token other than a closing bracket stays, unless it is a brace where a
block is announced. -/
theorem putPlain (hcloses : tok.token.closesBracket = false)
    (hplain : pending.isSome = true → tok.token ≠ .lbrace)
    (hbefore : Follows before ⟨stack, pending⟩) :
    Weaves before tok (putPlain tok stack).1.lexemes (putPlain tok stack).2 := by
  have hstays : ¬ BecomesMarker before tok := by
    rintro (⟨ht, hannouncing⟩ | ⟨ht, -⟩)
    · exact hplain (hbefore.announces.2 hannouncing) ht
    · simp [ht, Token.closesBracket] at hcloses
  refine kept hstays ?_ rfl
  rw [hbefore.openings]
  cases ht : tok.token <;>
    simp_all [Origin.openAfter, Layout.putPlain, Frame.opening, Token.closesBracket]

theorem put {opened : Bool} (hplain : pending.isSome = true → tok.token ≠ .lbrace)
    (hbefore : Follows before ⟨stack, pending⟩) :
    Weaves before tok (put tok opened stack).1.lexemes (put tok opened stack).2 := by
  rcases put_cases tok opened stack with
    ⟨hin, count, left, hclose, hput⟩ | ⟨hcloses, hput⟩ | ⟨-, hcloses, moved, left, hmoved, hput⟩
  · rw [hput]
    have hleft : left = stack.drop count := by
      rcases hclose with hlet | ⟨-, rfl, rfl⟩
      · exact eq_drop_of_closeLet? hlet
      · rfl
    refine ends (kept ?_ ?_ (by rw [hin]; rfl))
    · rintro (⟨ht, -⟩ | ⟨ht, -⟩) <;> simp [hin] at ht
    · rw [(hbefore.ends tok count).openings, hleft]
      simp [Origin.openAfter, hin]
  · rw [hput]
    exact putCloser hcloses hbefore
  · rw [hput]
    rcases hmoved with hmoved | ⟨rfl, rfl⟩
    · obtain ⟨rfl, rfl⟩ := Prod.mk.inj hmoved
      exact dedent hbefore fun before' hbefore' => putPlain hcloses hplain hbefore'
    · exact putPlain hcloses hplain hbefore

theorem step (tok : Lexeme) (hbefore : Follows before state) :
    Weaves before tok (step state tok).1.lexemes (step state tok).2 := by
  rcases step_cases state tok with ⟨kind, hpending, hbrace, hstep⟩ | ⟨hplain, opened, hstep⟩
  · have hmarker : { tok with token := .blockStart, lineStart := false } =
        (Origin.brace tok).lexeme := by simp [Origin.lexeme, hbrace]
    rw [hstep, hmarker]
    refine brace (.inl ⟨hbrace, hbefore.announces.1 (by rw [hpending]; rfl)⟩) ?_ rfl
    simp [Origin.openAfter, hbrace, hbefore.openings, Frame.opening]
  · rw [hstep]
    obtain ⟨stack, pending⟩ := state
    cases pending with
    | none => exact put hplain hbefore
    | some kind =>
      cases hitems : hasItems stack tok with
      | true =>
        simp only [reach, lead, hitems, if_true]
        exact insert rfl (put hplain (hbefore.inserted rfl))
      | false =>
        simp only [reach, lead, hitems]
        have hstarted : Follows (before ++ [.inserted .blockStart tok])
            ⟨.implicit kind tok.column :: stack, some kind⟩ := hbefore.inserted rfl
        exact insert rfl (insert rfl (put hplain (hstarted.inserted rfl)))

end Weaves

/-! ## Whole programs -/

/-- What the steps of a program put out, and what is put out after them. -/
theorem exists_woven_steps {before : List Origin} {state : State} (hbefore : Follows before state)
    (raws : List Lexeme) : ∃ os, (steps state raws).1.lexemes = os.map Origin.lexeme ∧
      ∀ rest others, Woven (before ++ os) rest others →
        Woven before (raws ++ rest) (os ++ others) := by
  induction raws generalizing before state with
  | nil => exact ⟨[], rfl, fun rest others h => by simpa using h⟩
  | cons tok raws ih =>
    obtain ⟨os, hout, hfollows, hwoven⟩ := Weaves.step tok hbefore
    obtain ⟨os', hout', hwoven'⟩ := ih hfollows
    refine ⟨os ++ os', ?_, fun rest others h => ?_⟩
    · rw [steps_cons, TokenStream.lexemes_append, hout, hout', List.map_append]
    · rw [← List.append_assoc] at h
      rw [List.append_assoc]
      exact hwoven _ _ (hwoven' _ _ h)

/-- At the end there are markers only, at the end of file. -/
theorem exists_woven_finish (state : State) {eof : Lexeme} (heof : eof.token = .eof) :
    ∃ os, (finish state eof).lexemes = os.map Origin.lexeme ∧
      ∀ before, Woven before [eof] os := by
  have hkept : ∀ before, Woven before [eof] [.kept eof] := fun before =>
    .kept (by rintro (⟨ht, -⟩ | ⟨ht, -⟩) <;> simp [heof] at ht) .nil
  -- Markers before the end of file, whichever they are.
  have hmarkers : ∀ (ts : List Token), (∀ t ∈ ts, t.isVirtual = true) → ∀ before,
      Woven before [eof] (ts.map (.inserted · eof) ++ [.kept eof]) := by
    intro ts hts
    induction ts with
    | nil => exact hkept
    | cons t ts ih =>
      obtain ⟨ht, hts⟩ := List.forall_mem_cons.1 hts
      exact fun before => .inserted ht (ih hts _)
  let closed := List.replicate ((enclosures state.stack).count .block) Token.blockEnd
  have hclosed : (closeAll eof state.stack).lexemes = closed.map (.marker · eof) := by
    simp [lexemes_closeAll, ends, closed]
  cases hpending : state.pending with
  | none =>
    refine ⟨closed.map (.inserted · eof) ++ [.kept eof], ?_,
      hmarkers closed (by simp [closed, Token.isVirtual])⟩
    simp [finish, hpending, hclosed, Origin.lexeme]
  | some kind =>
    refine ⟨(.blockStart :: .blockEnd :: closed).map (.inserted · eof) ++ [.kept eof], ?_,
      hmarkers _ (by simp [closed, Token.isVirtual])⟩
    simp [finish, hpending, hclosed, Origin.lexeme, ends]

/-- What becomes of the tokens `raws` of a program. -/
structure Conserves (raws : List Lexeme) (os : List Origin) : Prop where
  /-- Each token is put out once, in its turn. -/
  sources : os.filterMap Origin.source? = raws
  /-- It becomes a marker exactly if it is a brace of a block. -/
  markers : ∀ before o after tok, os = before ++ o :: after → o.source? = some tok →
    (o = .brace tok ↔ BecomesMarker before tok)
  /-- All other markers stand at the place of the next token. -/
  inserted : ∀ before t next after, os = before ++ .inserted t next :: after →
    t.isVirtual = true ∧ (after.filterMap Origin.source?).head? = some next

namespace Woven

variable {before : List Origin} {raws : List Lexeme} {os : List Origin}

theorem sources (h : Woven before raws os) : os.filterMap Origin.source? = raws := by
  induction h with
  | nil => rfl
  | inserted isVirtual _ ih => exact ih
  | kept _ _ ih | brace _ _ ih => simp [Origin.source?, ih]

theorem markers (h : Woven before raws os) {pre after : List Origin} {o : Origin} {tok : Lexeme}
    (hos : os = pre ++ o :: after) (ho : o.source? = some tok) :
    o = .brace tok ↔ BecomesMarker (before ++ pre) tok := by
  induction h generalizing pre with
  | nil => simp at hos
  | inserted _ _ ih | kept _ _ ih | brace _ _ ih =>
    rcases List.cons_eq_append_iff.1 hos with ⟨rfl, hos⟩ | ⟨pre, rfl, rfl⟩
    · obtain ⟨rfl, -⟩ := List.cons.inj hos
      simp_all [Origin.source?]
    · simpa using ih rfl

theorem next_inserted (h : Woven before raws os) {pre after : List Origin} {t : Token}
    {next : Lexeme} (hos : os = pre ++ .inserted t next :: after) :
    t.isVirtual = true ∧ (after.filterMap Origin.source?).head? = some next := by
  induction h generalizing pre with
  | nil => simp at hos
  | inserted isVirtual rest ih =>
    rcases List.cons_eq_append_iff.1 hos with ⟨rfl, hos⟩ | ⟨pre, rfl, rfl⟩
    · obtain ⟨heq, rfl⟩ := List.cons.inj hos
      obtain ⟨rfl, rfl⟩ := Origin.inserted.inj heq
      exact ⟨isVirtual, by rw [rest.sources]; rfl⟩
    · exact ih rfl
  | kept _ _ ih | brace _ _ ih =>
    rcases List.cons_eq_append_iff.1 hos with ⟨rfl, hos⟩ | ⟨pre, rfl, rfl⟩
    · simp at hos
    · exact ih rfl

theorem conserves (h : Woven [] raws os) : Conserves raws os where
  sources := h.sources
  markers before o after tok hos ho := by simpa using h.markers hos ho
  inserted before t next after hos := h.next_inserted hos

/-- Without the markers, the tokens that stay are left. -/
theorem filter_lexemes (h : Woven before raws os)
    (hraws : ∀ tok ∈ raws, tok.token.isVirtual = false) :
    (os.map Origin.lexeme).filter (!·.token.isVirtual) = os.filterMap Origin.kept? := by
  induction h with
  | nil => rfl
  | inserted isVirtual _ ih =>
    rw [List.map_cons, List.filter_cons_of_neg (by simp [Origin.lexeme, Lexeme.marker, isVirtual]),
      List.filterMap_cons_none rfl, ih hraws]
  | kept _ _ ih =>
    obtain ⟨htok, hraws⟩ := List.forall_mem_cons.1 hraws
    simpa [Origin.lexeme, htok, Origin.kept?] using ih hraws
  | @brace _ tok _ _ becomes _ ih =>
    have hvirtual : (Origin.brace tok).lexeme.token.isVirtual = true := by
      by_cases hbrace : tok.token = .lbrace <;> simp [Origin.lexeme, hbrace, Token.isVirtual]
    rw [List.map_cons, List.filter_cons_of_neg (by simp [hvirtual]), List.filterMap_cons_none rfl,
      ih (List.forall_mem_cons.1 hraws).2]

end Woven

/-- The origins of the lexemes of a text with resolved layout. -/
theorem exists_woven_resolve (toks : List Lexeme) : ∃ eof os, IsEnd toks eof ∧
    (resolve toks).lexemes = os.map Origin.lexeme ∧ Woven [] (program toks ++ [eof]) os := by
  obtain ⟨eof, hend, hresolve⟩ := resolve_eq_of_end toks
  have hinitial : Follows [] State.initial := ⟨rfl, by simp [State.initial, Announcing]⟩
  obtain ⟨os, hout, hwoven⟩ := exists_woven_steps hinitial (program toks)
  obtain ⟨os', hout', hwoven'⟩ :=
    exists_woven_finish (steps .initial (program toks)).2 hend.token_eq
  refine ⟨eof, os ++ os', hend, ?_, hwoven _ _ (hwoven' _)⟩
  rw [hresolve, TokenStream.lexemes_append, hout, hout', List.map_append]

/-- Layout resolution keeps the program, comments aside, up to its end of file.
Only braces of blocks become markers, and what is put in besides are markers
without text at the place of the next token. -/
theorem resolve_conserves (toks : List Lexeme)
    (hvirtual : ∀ tok ∈ toks, tok.token.isVirtual = false) :
    ∃ eof os, IsEnd toks eof ∧ (resolve toks).lexemes = os.map Origin.lexeme ∧
      (resolve toks).lexemes.filter (!·.token.isVirtual) = os.filterMap Origin.kept? ∧
      Conserves (program toks ++ [eof]) os := by
  obtain ⟨eof, os, hend, hout, hwoven⟩ := exists_woven_resolve toks
  refine ⟨eof, os, hend, hout, ?_, hwoven.conserves⟩
  rw [hout]
  refine hwoven.filter_lexemes fun tok htok => ?_
  rcases List.mem_append.1 htok with htok | htok
  · exact hvirtual tok (program_subset htok)
  · rw [List.mem_singleton.1 htok, hend.token_eq]
    rfl

/-- Of the closing braces here only the second becomes a marker: the first one
closes a plain brace, and the last one comes after an `in` that has closed the
outer block in braces. -/
theorem resolve_conserves_braces :
    let toks : List Lexeme :=
      [⟨.kwLet, ⟨0, 3⟩, 1, 1, true⟩, ⟨.lbrace, ⟨4, 5⟩, 1, 5, false⟩, ⟨.kwLet, ⟨6, 9⟩, 1, 7, false⟩,
        ⟨.blockComment "", ⟨10, 14⟩, 1, 11, false⟩, ⟨.lbrace, ⟨15, 16⟩, 1, 16, false⟩,
        ⟨.unit, ⟨17, 19⟩, 1, 18, false⟩, ⟨.lbrace, ⟨20, 21⟩, 1, 21, false⟩,
        ⟨.rbrace, ⟨21, 22⟩, 1, 22, false⟩, ⟨.rbrace, ⟨23, 24⟩, 1, 24, false⟩,
        ⟨.kwIn, ⟨25, 27⟩, 1, 26, false⟩, ⟨.rbrace, ⟨28, 29⟩, 1, 29, false⟩]
    (∀ tok ∈ toks, tok.token.isVirtual = false) ∧
      ∃ eof os, IsEnd toks eof ∧ (resolve toks).lexemes = os.map Origin.lexeme ∧
        (resolve toks).lexemes.filter (!·.token.isVirtual) = os.filterMap Origin.kept? ∧
        Conserves (program toks ++ [eof]) os := by
  intro toks
  have hvirtual : ∀ tok ∈ toks, tok.token.isVirtual = false := by decide
  exact ⟨hvirtual, resolve_conserves toks hvirtual⟩

end Layout

end Offside
