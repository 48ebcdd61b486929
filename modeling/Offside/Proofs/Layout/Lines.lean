-- SUMMARY: Layout resolution of texts that are laid out line by line, with blocks inside lines in braces.
import Mathlib.Data.List.Chain
import Mathlib.Data.List.Forall2
import Offside.Proofs.Concrete.Written
import Offside.Proofs.Layout.Keeps
import Offside.Proofs.Layout.Nesting
import Offside.Proofs.Lexeme.Scanned

/-! # Texts in lines

In a line, blocks are in braces, and the line leaves open what was open before
it: `Lays`. An item of a block is a line, and below it the lines of the items of
its own block, further to the right: `LaysItem`. What such lines are put out as
is the item between markers, up to the ends of the blocks that only a later line
or the end of file closes: `Leaves`. -/

namespace Offside

/-- A token that neither opens nor closes anything. -/
def Token.isFlat : Token → Bool
  | .kwLet | .kwWhere | .kwIn | .lparen | .rparen | .lbrace | .rbrace => false
  | _ => true

namespace Layout

open Lexeme (Joined)

/-! ## Dots -/

/-- The lexeme `b` in the place of `a`. -/
structure Replaces (a b : Lexeme) : Prop where
  span : b.span = a.span
  dot : b.token = .dot ↔ a.token = .dot

theorem Replaces.refl (a : Lexeme) : Replaces a a := ⟨rfl, Iff.rfl⟩

theorem Replaces.joined {a a' b b' : Lexeme} (ha : Replaces a a') (hb : Replaces b b')
    (h : Joined a b) : Joined a' b' := by
  constructor
  · rw [hb.dot, ha.span, hb.span]
    exact h.before
  · rw [ha.dot, ha.span, hb.span]
    exact h.after

/-- The dots stand directly between their neighbours, and none stands at an end. -/
structure Apart (toks : List Lexeme) : Prop where
  joined : toks.IsChain Joined
  head : ∀ tok ∈ toks.head?, tok.token ≠ .dot
  last : ∀ tok ∈ toks.getLast?, tok.token ≠ .dot

namespace Apart

variable {xs ys : List Lexeme}

theorem nil : Apart [] := ⟨.nil, by simp, by simp⟩

theorem append (hx : Apart xs) (hy : Apart ys) : Apart (xs ++ ys) := by
  refine ⟨List.isChain_append.2 ⟨hx.joined, hy.joined, fun a ha b hb => ?_⟩, ?_, ?_⟩
  · exact ⟨fun h => absurd h (hy.head b hb), fun h => absurd h (hx.last a ha)⟩
  · intro tok htok
    cases xs with
    | nil => exact hy.head tok htok
    | cons x xs => exact hx.head tok htok
  · intro tok htok
    rw [List.getLast?_append] at htok
    cases hlast : ys.getLast? with
    | none => exact hx.last tok (by simpa [hlast] using htok)
    | some y =>
      obtain rfl : y = tok := by simpa [hlast] using htok
      exact hy.last y hlast

/-- Markers, and whatever else is no dot. -/
theorem of_ne (h : ∀ tok ∈ xs, tok.token ≠ .dot) : Apart xs := by
  induction xs with
  | nil => exact nil
  | cons x xs ih =>
    obtain ⟨hx, hxs⟩ := List.forall_mem_cons.1 h
    exact (append ⟨.singleton x, by simpa using hx, by simpa using hx⟩ (ih hxs) : Apart ([x] ++ xs))

theorem replace (h : Apart xs) (hreplaces : List.Forall₂ Replaces xs ys) : Apart ys := by
  refine ⟨?_, ?_, ?_⟩
  · have hchain := h.joined
    clear h
    induction hreplaces with
    | nil => exact .nil
    | @cons x y xs ys hxy hrest ih =>
      cases hrest with
      | nil => exact .singleton y
      | cons hnext hrest =>
        obtain ⟨hjoined, hchain⟩ := List.isChain_cons_cons.1 hchain
        exact List.isChain_cons_cons.2 ⟨hxy.joined hnext hjoined, ih hchain⟩
  · cases hreplaces with
    | nil => simp
    | cons hxy hrest =>
      rintro _ ⟨⟩
      exact fun hdot => h.head _ rfl (hxy.dot.1 hdot)
  · intro tok htok
    rw [← List.head?_reverse] at htok
    have hreverse : List.Forall₂ Replaces xs.reverse ys.reverse := List.forall₂_reverse_iff.2 hreplaces
    obtain ⟨ys', hys⟩ := List.head?_eq_some_iff.1 htok
    rw [hys] at hreverse
    obtain ⟨x, xs', hx, -, hxs⟩ := List.forall₂_cons_right_iff.1 hreverse
    have hlast := h.last x (by rw [← List.head?_reverse, hxs]; rfl)
    exact fun hdot => hlast (hx.dot.1 hdot)

end Apart

/-! ## In one line -/

/-- No block of a `let` is delimited by indentation. -/
def LetsBraced (stack : List Frame) : Prop := ∀ column, .implicit .bindings column ∉ stack

theorem LetsBraced.nil : LetsBraced [] := fun _ => List.not_mem_nil

theorem closeLet?_eq_none {stack : List Frame} (hstack : LetsBraced stack)
    (hspare : bracedLet stack = false) : closeLet? stack = none := by
  induction stack with
  | nil => rfl
  | cons frame stack ih =>
    cases frame with
    | implicit kind column =>
      cases kind with
      | bindings => exact absurd List.mem_cons_self (hstack column)
      | body =>
        rw [closeLet?, ih (fun column hmem => hstack column (List.mem_cons_of_mem _ hmem)) hspare]
        rfl
    | braced kind =>
      cases kind with
      | bindings => simp [bracedLet] at hspare
      | body => rfl
    | bracket => rfl

/-- In one line the tokens `ts` are put out as `us`, and nothing is left open,
unless an `in` closes a block in braces. -/
def Lays (ts us : List Token) : Prop :=
  ∀ stack (toks : List Lexeme), LetsBraced stack → toks.map (·.token) = ts →
    (∀ tok ∈ toks, tok.lineStart = false) → stolen ⟨stack, none⟩ toks = 0 →
    ∃ out, steps ⟨stack, none⟩ toks = (⟨out, []⟩, ⟨stack, none⟩) ∧ out.map (·.token) = us ∧
      List.Forall₂ Replaces toks out

namespace Lays

variable {ts ts' us us' : List Token} {t : Token}

theorem nil : Lays [] [] := by
  intro stack toks _ htoks _ _
  obtain rfl := List.map_eq_nil_iff.1 htoks
  exact ⟨[], rfl, rfl, .nil⟩

theorem append (h : Lays ts us) (h' : Lays ts' us') : Lays (ts ++ ts') (us ++ us') := by
  intro stack toks hstack htoks hline hspare
  obtain ⟨xs, ys, rfl, hxs, hys⟩ := List.map_eq_append_iff.1 htoks
  rw [stolen_append, Nat.add_eq_zero_iff] at hspare
  obtain ⟨out, hsteps, hout, hreplaces⟩ :=
    h stack xs hstack hxs (fun tok htok => hline tok (List.mem_append_left _ htok)) hspare.1
  rw [hsteps] at hspare
  obtain ⟨out', hsteps', hout', hreplaces'⟩ :=
    h' stack ys hstack hys (fun tok htok => hline tok (List.mem_append_right _ htok)) hspare.2
  refine ⟨out ++ out', ?_, by rw [List.map_append, hout, hout'],
    List.rel_append hreplaces hreplaces'⟩
  rw [steps_append, hsteps, hsteps']
  rfl

theorem single (ht : t.isFlat = true) : Lays [t] [t] := by
  intro stack toks _ htoks hline _
  obtain ⟨tok, rest, rfl, rfl, hrest⟩ := List.map_eq_cons_iff.1 htoks
  obtain rfl := List.map_eq_nil_iff.1 hrest
  refine ⟨[tok], ?_, rfl, .cons (.refl tok) .nil⟩
  have hstart := hline tok List.mem_cons_self
  rw [steps_cons]
  have hstep : step ⟨stack, none⟩ tok = (⟨[tok], []⟩, ⟨stack, none⟩) := by
    cases htok : tok.token <;> simp [htok, Token.isFlat] at ht <;>
      simp [step, put, putPlain, htok, hstart, announced]
  rw [hstep]
  rfl

/-- Parts with a separator between them. -/
theorem intercalate {α : Type} {raw out : α → List Token} {xs : List α} (ht : t.isFlat = true)
    (h : ∀ x ∈ xs, Lays (raw x) (out x)) :
    Lays ([t].intercalate (xs.map raw)) ([t].intercalate (xs.map out)) := by
  induction xs with
  | nil => exact nil
  | cons x xs ih =>
    obtain ⟨hx, hxs⟩ := List.forall_mem_cons.1 h
    cases xs with
    | nil => simpa [List.intercalate] using hx
    | cons y ys =>
      simp only [List.map_cons, List.intercalate_cons_cons] at ih ⊢
      exact (hx.append (single ht)).append (ih hxs)

/-- An `in` after a block in braces, which is closed. -/
theorem kwIn : Lays [.kwIn] [.kwIn] := by
  intro stack toks hstack htoks _ hspare
  obtain ⟨tok, rest, rfl, htok, hrest⟩ := List.map_eq_cons_iff.1 htoks
  obtain rfl := List.map_eq_nil_iff.1 hrest
  refine ⟨[tok], ?_, by rw [List.map_singleton, htok], .cons (.refl tok) .nil⟩
  have hclose : closeLet? stack = none :=
    closeLet?_eq_none hstack ((stolen_cons_eq_zero.1 hspare).1 htok)
  rw [steps_cons, step]
  simp only [put, htok, hclose]
  rfl

/-- What stands between a bracket and its closing one. -/
theorem enclosed {stack : List Frame} {frame : Frame} {toks : List Lexeme} {close close' : Lexeme}
    (h : Lays ts us) (hstack : LetsBraced stack) (hframe : ∀ column, frame ≠ .implicit .bindings column)
    (htoks : toks.map (·.token) = ts) (hline : ∀ tok ∈ toks, tok.lineStart = false)
    (hspare : stolen ⟨frame :: stack, none⟩ (toks ++ [close]) = 0)
    (hstep : step ⟨frame :: stack, none⟩ close = (⟨[close'], []⟩, ⟨stack, none⟩))
    (hclose : Replaces close close') :
    ∃ out, steps ⟨frame :: stack, none⟩ (toks ++ [close]) = (⟨out ++ [close'], []⟩, ⟨stack, none⟩) ∧
      out.map (·.token) = us ∧ List.Forall₂ Replaces (toks ++ [close]) (out ++ [close']) := by
  have hinside : LetsBraced (frame :: stack) := by
    intro column hmem
    rcases List.mem_cons.1 hmem with heq | hmem
    · exact hframe column heq.symm
    · exact hstack column hmem
  rw [stolen_append, Nat.add_eq_zero_iff] at hspare
  obtain ⟨out, hsteps, hout, hreplaces⟩ := h _ toks hinside htoks hline hspare.1
  refine ⟨out, ?_, hout, List.rel_append hreplaces (.cons hclose .nil)⟩
  rw [steps_append, hsteps, steps_cons, hstep]
  rfl

/-- A pair of brackets. -/
theorem brackets {open_ close : Token} (h : Lays ts us) (hopen : open_ = .lparen ∨ open_ = .lbrace)
    (hclose : close = .rparen ∨ close = .rbrace) :
    Lays (open_ :: ts ++ [close]) (open_ :: us ++ [close]) := by
  intro stack toks hstack htoks hline hspare
  obtain ⟨first, others, rfl, hfirst, hothers⟩ := List.map_eq_cons_iff.1 htoks
  obtain ⟨inside, lasts, rfl, hinside, hlasts⟩ := List.map_eq_append_iff.1 hothers
  obtain ⟨last, none, rfl, hlast, hnone⟩ := List.map_eq_cons_iff.1 hlasts
  obtain rfl := List.map_eq_nil_iff.1 hnone
  have hstart := hline first List.mem_cons_self
  have hstep : step ⟨stack, none⟩ first = (⟨[first], []⟩, ⟨.bracket :: stack, none⟩) := by
    rw [step]
    rcases hopen with rfl | rfl <;> simp [put, putPlain, hfirst, hstart, announced]
  have hstep' : step ⟨.bracket :: stack, none⟩ last = (⟨[last], []⟩, ⟨stack, none⟩) := by
    rw [step]
    rcases hclose with rfl | rfl <;> simp [put, putCloser, closeInside?, hlast, ends]
  have hspare' := (stolen_cons_eq_zero.1 hspare).2
  rw [hstep] at hspare'
  obtain ⟨out, hsteps, hout, hreplaces⟩ := h.enclosed hstack (fun _ => by simp) hinside
    (fun tok htok => hline tok (by simp [htok])) hspare' hstep' (.refl last)
  refine ⟨first :: out ++ [last], ?_, by simp [hfirst, hout, hlast], .cons (.refl first) hreplaces⟩
  rw [steps_cons, hstep, hsteps]
  rfl

/-- A block in braces after its keyword. -/
theorem block {kind : BlockKind} (h : Lays ts us) (ht : announced t = some kind) :
    Lays (t :: .lbrace :: ts ++ [.rbrace]) (t :: .blockStart :: us ++ [.blockEnd]) := by
  intro stack toks hstack htoks hline hspare
  obtain ⟨keyword, others, rfl, hkeyword, hothers⟩ := List.map_eq_cons_iff.1 htoks
  obtain ⟨opening, others, rfl, hopening, hothers⟩ := List.map_eq_cons_iff.1 hothers
  obtain ⟨inside, lasts, rfl, hinside, hlasts⟩ := List.map_eq_append_iff.1 hothers
  obtain ⟨closing, none, rfl, hclosing, hnone⟩ := List.map_eq_cons_iff.1 hlasts
  obtain rfl := List.map_eq_nil_iff.1 hnone
  have hstart := hline keyword List.mem_cons_self
  have hstep : step ⟨stack, none⟩ keyword = (⟨[keyword], []⟩, ⟨stack, some kind⟩) := by
    rw [step]
    cases t <;> simp [announced] at ht <;>
      simp [put, putPlain, hkeyword, hstart, announced, ht]
  have hstep' : step ⟨stack, some kind⟩ opening =
      (⟨[{ opening with token := .blockStart, lineStart := false }], []⟩,
        ⟨.braced kind opening.span :: stack, none⟩) := step_opening rfl hopening
  have hstep'' : step ⟨.braced kind opening.span :: stack, none⟩ closing =
      (⟨[{ closing with token := .blockEnd, lineStart := false }], []⟩, ⟨stack, none⟩) := by
    rw [step]
    simp [put, putCloser, closeInside?, hclosing, ends]
  have hspare' := (stolen_cons_eq_zero.1 hspare).2
  rw [hstep] at hspare'
  replace hspare' := (stolen_cons_eq_zero.1 hspare').2
  rw [hstep'] at hspare'
  obtain ⟨out, hsteps, hout, hreplaces⟩ := h.enclosed hstack (fun _ => by simp) hinside
    (fun tok htok => hline tok (by simp [htok])) hspare' hstep'' ⟨rfl, by simp [hclosing]⟩
  have hreplaced : Replaces opening { opening with token := .blockStart, lineStart := false } :=
    ⟨rfl, by simp [hopening]⟩
  refine ⟨keyword :: { opening with token := .blockStart, lineStart := false } :: out ++
    [{ closing with token := .blockEnd, lineStart := false }], ?_, by simp [hkeyword, hout],
    .cons (.refl keyword) (.cons hreplaced hreplaces)⟩
  rw [steps_cons, hstep, steps_cons, hstep', hsteps]
  rfl

end Lays

/-! ## Lines -/

/-- The tokens of a line, and how far to the right they start. -/
structure Line where
  indent : Nat
  tokens : List Token

/-- Further to the right. -/
def Line.indented (count : Nat) (line : Line) : Line := { line with indent := line.indent + count }

/-- The first token of the line belongs to no bracket or block before it, and no
dot stands at an end. -/
structure Line.Fit (line : Line) : Prop where
  first : ∃ t ∈ line.tokens.head?, t ≠ .lbrace ∧ t ≠ .kwIn ∧ t.closesBracket = false
  head : ∀ t ∈ line.tokens.head?, t ≠ .dot
  last : ∀ t ∈ line.tokens.getLast?, t ≠ .dot

/-- The lexemes of a line, where the left margin is at `column`. -/
structure IsLine (column : Nat) (line : Line) (tok : Lexeme) (toks : List Lexeme) : Prop where
  fit : line.Fit
  tokens : (tok :: toks).map (·.token) = line.tokens
  column : tok.column = column + line.indent
  lineStart : tok.lineStart = true
  later : ∀ tok ∈ toks, tok.lineStart = false
  joined : (tok :: toks).IsChain Joined

/-- The lexemes of some lines. -/
inductive Lines (column : Nat) : List Line → List Lexeme → Prop
  | nil : Lines column [] []
  | cons {line lines tok toks others} (first : IsLine column line tok toks)
      (rest : Lines column lines others) : Lines column (line :: lines) (tok :: toks ++ others)

/-- A token that closes nothing: only at the start of a line do blocks matter. -/
theorem put_eq {tok : Lexeme} (hin : tok.token ≠ .kwIn) (hcloses : tok.token.closesBracket = false)
    (opened : Bool) (stack : List Frame) : put tok opened stack =
      if tok.lineStart && !opened then ((dedent tok none stack).1 ++
        (putPlain tok (dedent tok none stack).2).1, (putPlain tok (dedent tok none stack).2).2)
      else putPlain tok stack := by
  have hnot : tok.token ≠ .rparen ∧ tok.token ≠ .rbrace := by
    simpa [Token.closesBracket] using hcloses
  unfold put
  split
  · exact absurd ‹_› hin
  · exact absurd ‹_› hnot.1
  · exact absurd ‹_› hnot.2
  · rfl

namespace IsLine

variable {column : Nat} {line : Line} {tok : Lexeme} {toks : List Lexeme} {stack : List Frame}

theorem apart (h : IsLine column line tok toks) : Apart (tok :: toks) := by
  refine ⟨h.joined, ?_, ?_⟩
  · rintro _ ⟨⟩
    refine h.fit.head _ ?_
    rw [← h.tokens]
    rfl
  · intro last hlast
    refine h.fit.last _ ?_
    rw [← h.tokens, List.getLast?_map]
    exact Option.mem_map_of_mem _ hlast

theorem plain (h : IsLine column line tok toks) :
    tok.token ≠ .lbrace ∧ tok.token ≠ .kwIn ∧ tok.token.closesBracket = false := by
  obtain ⟨t, ht, hplain⟩ := h.fit.first
  obtain rfl : tok.token = t := by
    rw [← h.tokens] at ht
    simpa using ht
  exact hplain

/-- The first token of a block. -/
theorem step_first {kind : BlockKind} (h : IsLine column line tok toks)
    (hcolumn : margin stack < tok.column) : step ⟨stack, some kind⟩ tok =
      (⟨[.marker .blockStart tok, tok], []⟩, (putPlain tok (.implicit kind tok.column :: stack)).2) := by
  have hitems : hasItems stack tok = true := by simp [hasItems, hcolumn]
  simp only [step, if_neg h.plain.1, hitems, put_eq h.plain.2.1 h.plain.2.2, if_true, Bool.not_true,
    Bool.and_false, Bool.false_eq_true, if_false]
  rfl

end IsLine

theorem dedent_columns {tok : Lexeme} {columns : List Nat} (hcolumns : ∀ c ∈ columns, tok.column < c)
    (inner : Option Nat) (stack : List Frame) :
    dedent tok inner (columns.map (.implicit .body) ++ .implicit .body tok.column :: stack) =
      (⟨ends columns.length tok ++ [.marker .blockSep tok], []⟩,
        .implicit .body tok.column :: stack) := by
  induction columns generalizing inner with
  | nil => simp [dedent, ends]
  | cons c columns ih =>
    obtain ⟨hc, hcolumns⟩ := List.forall_mem_cons.1 hcolumns
    have hne : ¬ tok.column = c := by omega
    have hle : ¬ c < tok.column := by omega
    have hrest : (columns.map (.implicit .body) ++
        .implicit .body tok.column :: stack : List Frame).isEmpty = false := by simp
    simp only [List.map_cons, List.cons_append, dedent, hne, hle, hrest, Bool.false_eq_true, if_false,
      ih hcolumns]
    rfl

/-! ## What lines leave open -/

/-- The markers of a block that was announced last. -/
def unfilled : Option BlockKind → List Token
  | some _ => [.blockStart, .blockEnd]
  | none => []

/-- Inside `stack` there are blocks without braces only, all further to the
right, and `closers` are the markers that end them. -/
def Leaves (stack : List Frame) (state : State) (closers : List Token) : Prop :=
  ∃ columns : List Nat, state.stack = columns.map (.implicit .body) ++ stack ∧
    (∀ column ∈ columns, margin stack < column) ∧
    closers = unfilled state.pending ++ List.replicate columns.length .blockEnd

namespace Leaves

variable {stack : List Frame} {state : State} {closers : List Token} {column : Nat} {line : Line}
  {tok : Lexeme} {toks : List Lexeme}

theorem refl (stack : List Frame) (pending : Option BlockKind) :
    Leaves stack ⟨stack, pending⟩ (unfilled pending) :=
  ⟨[], rfl, List.forall_mem_nil _, by simp⟩

/-- The markers that end what is open are no dots. -/
theorem apart (h : Leaves stack state closers) {marks : List Lexeme} {last : List Token}
    (hmarks : marks.map (·.token) = closers ++ last) (hlast : .dot ∉ last) : Apart marks := by
  obtain ⟨columns, -, -, rfl⟩ := h
  refine .of_ne fun tok htok hdot => ?_
  have hmem : Token.dot ∈ unfilled state.pending ++ List.replicate columns.length .blockEnd ++ last := by
    rw [← hmarks, ← hdot]
    exact List.mem_map_of_mem htok
  cases hpending : state.pending <;> simp [hpending, unfilled, hlast] at hmem

/-- A block is left open with what is open in it. -/
theorem block (h : Leaves (.implicit .body column :: stack) state closers)
    (hcolumn : margin stack < column) : Leaves stack state (closers ++ [.blockEnd]) := by
  obtain ⟨columns, hstack, hcolumns, rfl⟩ := h
  refine ⟨columns ++ [column], by simp [hstack], ?_, ?_⟩
  · intro c hc
    rcases List.mem_append.1 hc with hc | hc
    · exact Nat.lt_trans hcolumn (hcolumns c hc)
    · rwa [List.mem_singleton.1 hc]
  · rw [List.append_assoc, List.length_append, List.length_singleton, ← List.replicate_append_replicate]
    rfl

/-- The next item of a block closes what is open in it. -/
theorem step_next (h : Leaves (.implicit .body tok.column :: stack) state closers)
    (hline : IsLine column line tok toks) : ∃ marks : List Lexeme,
      marks.map (·.token) = closers ++ [.blockSep] ∧
      step state tok = (⟨marks ++ [tok], []⟩, (putPlain tok (.implicit .body tok.column :: stack)).2) := by
  obtain ⟨inside, pending⟩ := state
  obtain ⟨columns, rfl, hcolumns, rfl⟩ := h
  have hput := put_eq hline.plain.2.1 hline.plain.2.2 false
    (columns.map (.implicit .body) ++ .implicit .body tok.column :: stack)
  rw [hline.lineStart, dedent_columns hcolumns] at hput
  cases pending with
  | none =>
    refine ⟨ends columns.length tok ++ [.marker .blockSep tok], ?_, ?_⟩
    · rw [List.map_append, tokens_ends]
      rfl
    · rw [step]
      exact hput
  | some kind =>
    have hitems : hasItems (columns.map (.implicit .body) ++ .implicit .body tok.column :: stack) tok =
        false := by
      have hmargin : tok.column ≤
          margin (columns.map (.implicit .body) ++ .implicit .body tok.column :: stack) := by
        cases columns with
        | nil => exact Nat.le_refl _
        | cons c columns => exact Nat.le_of_lt (hcolumns c List.mem_cons_self)
      simp [hasItems, Nat.not_lt.2 hmargin]
    refine ⟨.marker .blockStart tok :: ends 1 tok ++ (ends columns.length tok ++ [.marker .blockSep tok]),
      ?_, ?_⟩
    · rw [List.map_append, List.map_append, List.map_cons, tokens_ends, tokens_ends]
      simp [unfilled, Lexeme.marker]
    · simp only [step, if_neg hline.plain.1, hitems, hput]
      simp only [Bool.false_eq_true, if_false]
      rfl

/-- The end of file closes everything. -/
theorem finish (h : Leaves [] state closers) (eof : Lexeme) : ∃ marks : List Lexeme,
    marks.map (·.token) = closers ∧ finish state eof = ⟨marks ++ [eof], []⟩ := by
  obtain ⟨inside, pending⟩ := state
  obtain ⟨columns, rfl, -, rfl⟩ := h
  have hclose : closeAll eof (columns.map (.implicit .body) ++ []) = ⟨ends columns.length eof, []⟩ := by
    induction columns with
    | nil => rfl
    | cons c columns ih =>
      rw [List.map_cons, List.cons_append, closeAll, ih]
      rfl
  cases pending with
  | none =>
    refine ⟨ends columns.length eof, by rw [tokens_ends]; rfl, ?_⟩
    simp only [Layout.finish, hclose]
    rfl
  | some kind =>
    refine ⟨.marker .blockStart eof :: ends 1 eof ++ ends columns.length eof, ?_, ?_⟩
    · rw [List.map_append, List.map_cons, tokens_ends, tokens_ends]
      rfl
    · simp only [Layout.finish, hclose]
      rfl

end Leaves

/-! ## Items -/

namespace Lines

variable {column : Nat} {lines others : List Line} {toks : List Lexeme}

theorem of_append (h : Lines column (lines ++ others) toks) :
    ∃ xs ys, toks = xs ++ ys ∧ Lines column lines xs ∧ Lines column others ys := by
  induction lines generalizing toks with
  | nil => exact ⟨[], toks, rfl, .nil, h⟩
  | cons line lines ih =>
    cases h with
    | @cons _ _ tok toks _ first rest =>
      obtain ⟨xs, ys, rfl, hxs, hys⟩ := ih rest
      exact ⟨tok :: toks ++ xs, ys, by simp, .cons first hxs, hys⟩

theorem of_indented {count : Nat} (h : Lines column (lines.map (.indented count)) toks) :
    Lines (column + count) lines toks := by
  induction lines generalizing toks with
  | nil =>
    cases h
    exact .nil
  | cons line lines ih =>
    cases h with
    | cons first rest =>
      refine .cons ⟨⟨first.fit.first, first.fit.head, first.fit.last⟩, first.tokens, ?_, first.lineStart,
        first.later, first.joined⟩ (ih rest)
      rw [first.column]
      change column + (line.indent + count) = column + count + line.indent
      omega

end Lines

/-- From `state` the lexemes `toks` put out `us` after `before`, up to the ends of
the blocks that stay open inside `stack`. -/
def Puts (stack : List Frame) (state : State) (before toks : List Lexeme) (us : List Token) : Prop :=
  ∃ out closers, (steps state toks).1 = ⟨out, []⟩ ∧ Leaves stack (steps state toks).2 closers ∧
    (before ++ out).map (·.token) ++ closers = us ∧ Apart (before ++ out)

/-- The lines of an item of a block are put out as `us`. -/
structure LaysItem (lines : List Line) (us : List Token) : Prop where
  first : ∃ line others, lines = line :: others ∧ line.indent = 0
  puts : ∀ column stack tok toks, LetsBraced stack → Lines column lines (tok :: toks) →
    stolen (putPlain tok (.implicit .body column :: stack)).2 toks = 0 →
    Puts (.implicit .body column :: stack) (putPlain tok (.implicit .body column :: stack)).2 [tok] toks us

theorem LaysItem.exists_cons {lines : List Line} {us : List Token} (h : LaysItem lines us)
    {column : Nat} {toks : List Lexeme} (hlines : Lines column lines toks) :
    ∃ line tok row others, toks = tok :: others ∧ IsLine column line tok row ∧ tok.column = column := by
  obtain ⟨line, others, rfl, hindent⟩ := h.first
  cases hlines with
  | cons first rest => exact ⟨_, _, _, _, rfl, first, by rw [first.column, hindent]; rfl⟩

namespace Puts

variable {stack stack' : List Frame} {state next : State} {before marks toks toks' : List Lexeme}
  {tok : Lexeme} {us us' : List Token}

/-- A token after some markers, and what it leads on to. -/
theorem place (h : Puts stack next [tok] toks us) (hstep : step state tok = (⟨marks ++ [tok], []⟩, next))
    (hbefore : Apart before) (hmarks : Apart marks) :
    Puts stack state before (tok :: toks) (before.map (·.token) ++ marks.map (·.token) ++ us) := by
  obtain ⟨out, closers, hout, hleaves, rfl, hapart⟩ := h
  refine ⟨marks ++ [tok] ++ out, closers, ?_, ?_, by simp, ?_⟩
  · rw [steps_cons, hstep, hout]
    rfl
  · rw [steps_cons, hstep]
    exact hleaves
  · rw [List.append_assoc]
    exact hbefore.append (hmarks.append hapart)

/-- What leads on from where the blocks that were left open end. -/
theorem append (h : Puts stack state before toks us) (hspare : stolen state (toks ++ toks') = 0)
    (h' : ∀ state closers before, Leaves stack state closers → Apart before → stolen state toks' = 0 →
      Puts stack' state before toks' (before.map (·.token) ++ closers ++ us')) :
    Puts stack' state before (toks ++ toks') (us ++ us') := by
  obtain ⟨out, closers, hout, hleaves, rfl, hapart⟩ := h
  rw [stolen_append, Nat.add_eq_zero_iff] at hspare
  obtain ⟨out', closers', hout', hleaves', htokens', hapart'⟩ := h' _ _ _ hleaves hapart hspare.2
  refine ⟨out ++ out', closers', ?_, ?_, by rw [← htokens', List.append_assoc], ?_⟩
  · rw [steps_append, hout, hout']
    rfl
  · rw [steps_append]
    exact hleaves'
  · rwa [← List.append_assoc]

end Puts

section

variable {column : Nat} {stack : List Frame} {liness : List (List Line)} {uss : List (List Token)}
  {toks : List Lexeme}

/-- The items of a block after some of it. -/
theorem puts_items (h : List.Forall₂ LaysItem liness uss) (hstack : LetsBraced stack) {state : State}
    {closers : List Token} {before : List Lexeme}
    (hleaves : Leaves (.implicit .body column :: stack) state closers)
    (hlines : Lines column liness.flatten toks) (hspare : stolen state toks = 0)
    (hbefore : Apart before) : Puts (.implicit .body column :: stack) state before toks
      (before.map (·.token) ++ closers ++ uss.flatMap (.blockSep :: ·)) := by
  induction h generalizing toks state closers before with
  | nil =>
    cases hlines
    exact ⟨[], closers, rfl, hleaves, by simp, by rwa [List.append_nil]⟩
  | @cons lines us liness uss hitem _ ih =>
    obtain ⟨xs, ys, rfl, hxs, hys⟩ := Lines.of_append hlines
    obtain ⟨line, tok, row, others, rfl, hline, rfl⟩ := hitem.exists_cons hxs
    obtain ⟨marks, hmarks, hstep⟩ := hleaves.step_next hline
    have hinside := hspare
    rw [stolen_append, Nat.add_eq_zero_iff, stolen_cons_eq_zero, hstep] at hinside
    have hfirst := (hitem.puts _ _ _ _ hstack hxs hinside.1.2).place hstep hbefore
      (hleaves.apart hmarks (by simp))
    have hall := hfirst.append hspare fun state closers before hleaves hbefore hspare =>
      ih hleaves hys hspare hbefore
    rw [hmarks] at hall
    simpa using hall

/-- A block, where it is announced. -/
theorem puts_block (h : List.Forall₂ LaysItem liness uss) (hstack : LetsBraced stack)
    (hcolumn : margin stack < column) (hlines : Lines column liness.flatten toks)
    (hspare : stolen ⟨stack, some .body⟩ toks = 0) {before : List Lexeme} (hbefore : Apart before) :
    Puts stack ⟨stack, some .body⟩ before toks
      (before.map (·.token) ++ (Style.marked .blockSep).block uss) := by
  cases h with
  | nil =>
    cases hlines
    exact ⟨[], _, rfl, .refl stack (some .body), by simp [unfilled, Style.block, Style.marked,
      List.intercalate], by rwa [List.append_nil]⟩
  | @cons lines us liness uss hitem hitems =>
    obtain ⟨xs, ys, rfl, hxs, hys⟩ := Lines.of_append hlines
    obtain ⟨line, tok, row, others, rfl, hline, rfl⟩ := hitem.exists_cons hxs
    have hstep : step ⟨stack, some .body⟩ tok = (⟨[.marker .blockStart tok, tok], []⟩,
        (putPlain tok (.implicit .body tok.column :: stack)).2) := hline.step_first hcolumn
    have hinside := hspare
    rw [stolen_append, Nat.add_eq_zero_iff, stolen_cons_eq_zero, hstep] at hinside
    have hmarker : Apart [.marker .blockStart tok] := .of_ne (by simp [Lexeme.marker])
    have hfirst := (hitem.puts _ _ _ _ hstack hxs hinside.1.2).place hstep hbefore hmarker
    have hall := hfirst.append hspare fun state closers before hleaves hbefore hspare =>
      puts_items hitems hstack hleaves hys hspare hbefore
    obtain ⟨out, closers, hout, hleaves, htokens, hapart⟩ := hall
    refine ⟨out, _, hout, hleaves.block hcolumn, ?_, hapart⟩
    rw [← List.append_assoc, htokens]
    simp [Style.block, Style.marked, intercalate_cons, Lexeme.marker]

end

/-! ## Kinds of items -/

theorem LetsBraced.body {stack : List Frame} (h : LetsBraced stack) (column : Nat) :
    LetsBraced (.implicit .body column :: stack) := by
  intro c hmem
  exact h c (by simpa using hmem)

/-- The rest of a line, once its first token is put out. -/
theorem Lays.rest {ts us : List Token} (h : Lays ts us) {stack : List Frame} {tok : Lexeme}
    {toks : List Lexeme} (hstack : LetsBraced stack) (htoks : (tok :: toks).map (·.token) = ts)
    (hplain : tok.token ≠ .kwIn ∧ tok.token.closesBracket = false)
    (hlater : ∀ tok ∈ toks, tok.lineStart = false) (hspare : stolen (putPlain tok stack).2 toks = 0) :
    ∃ out, steps (putPlain tok stack).2 toks = (⟨out, []⟩, ⟨stack, none⟩) ∧
      (tok :: out).map (·.token) = us ∧ List.Forall₂ Replaces (tok :: toks) (tok :: out) := by
  -- a line that does not start here
  let tok' : Lexeme := { tok with lineStart := false }
  have hplain' : tok'.token ≠ .kwIn := hplain.1
  have hstep : step ⟨stack, none⟩ tok' = (⟨[tok'], []⟩, (putPlain tok stack).2) :=
    put_eq hplain' hplain.2 false stack
  have hspare' : stolen ⟨stack, none⟩ (tok' :: toks) = 0 := by
    rw [stolen_cons_eq_zero, hstep]
    exact ⟨fun h => absurd h hplain.1, hspare⟩
  obtain ⟨out, hsteps, hout, hreplaces⟩ := h stack (tok' :: toks) hstack htoks (by
    intro x hx
    rcases List.mem_cons.1 hx with rfl | hx
    · rfl
    · exact hlater x hx) hspare'
  rw [steps_cons, hstep] at hsteps
  generalize steps (putPlain tok stack).2 toks = moved at hsteps ⊢
  obtain ⟨⟨rest, ds⟩, state⟩ := moved
  obtain ⟨⟨rfl, rfl⟩, rfl⟩ : (tok' :: rest = out ∧ ds = []) ∧ state = ⟨stack, none⟩ := by
    have heq : TokenStream.mk (tok' :: rest) ds = ⟨out, []⟩ ∧ state = ⟨stack, none⟩ := Prod.mk.inj hsteps
    exact ⟨TokenStream.mk.inj heq.1, heq.2⟩
  refine ⟨rest, rfl, hout, ?_⟩
  cases hreplaces with
  | cons _ hrest => exact .cons (.refl tok) hrest

namespace LaysItem

variable {ts us : List Token}

/-- An item that is one line. -/
theorem single (h : Lays ts us) : LaysItem [⟨0, ts⟩] us := by
  refine ⟨⟨_, _, rfl, rfl⟩, fun column stack tok toks hstack hlines hspare => ?_⟩
  generalize hall : tok :: toks = all at hlines
  cases hlines with
  | @cons _ _ tok' toks' _ hline rest =>
    cases rest
    obtain ⟨rfl, rfl⟩ : tok = tok' ∧ toks = toks' := by simpa using hall
    obtain ⟨out, hsteps, hout, hreplaces⟩ := h.rest (hstack.body column) hline.tokens hline.plain.2
      hline.later hspare
    refine ⟨out, [], by rw [hsteps], ?_, ?_, hline.apart.replace hreplaces⟩
    · rw [hsteps]
      exact .refl _ none
    · rw [List.append_nil]
      exact hout

/-- An item with a block of its own, further to the right. -/
theorem block (h : Lays ts us) (hne : ts ≠ []) {liness : List (List Line)}
    {uss : List (List Token)} (hitems : List.Forall₂ LaysItem liness uss) (count : Nat)
    (hcount : 0 < count) : LaysItem (⟨0, ts ++ [.kwWhere]⟩ :: liness.flatten.map (.indented count))
      (us ++ .kwWhere :: (Style.marked .blockSep).block uss) := by
  refine ⟨⟨_, _, rfl, rfl⟩, fun column stack tok toks hstack hlines hspare => ?_⟩
  generalize hall : tok :: toks = all at hlines
  cases hlines with
  | @cons _ _ tok' toks' others hline rest =>
    obtain ⟨rfl, rfl⟩ : tok = tok' ∧ toks = toks' ++ others := by simpa using hall
    obtain ⟨xs, ys, hxs, hts, hys⟩ := List.map_eq_append_iff.1 hline.tokens
    obtain ⟨keyword, none, rfl, hkeyword, hnone⟩ := List.map_eq_cons_iff.1 hys
    obtain rfl := List.map_eq_nil_iff.1 hnone
    obtain ⟨row, rfl, rfl⟩ : ∃ row, xs = tok :: row ∧ toks' = row ++ [keyword] := by
      cases xs with
      | nil => exact absurd hts.symm hne
      | cons x xs =>
        obtain ⟨rfl, rfl⟩ : tok = x ∧ toks' = xs ++ [keyword] := by simpa using hxs
        exact ⟨xs, rfl, rfl⟩
    have hbody := hstack.body column
    rw [List.append_assoc] at hspare ⊢
    have hfirst := hspare
    rw [stolen_append, Nat.add_eq_zero_iff] at hfirst
    obtain ⟨out, hsteps, hout, hreplaces⟩ := h.rest hbody hts hline.plain.2
      (fun tok htok => hline.later tok (List.mem_append_left _ htok)) hfirst.1
    have hstep : step ⟨.implicit .body column :: stack, none⟩ keyword =
        (⟨[keyword], []⟩, ⟨.implicit .body column :: stack, some .body⟩) := by
      have hlater := hline.later keyword (by simp)
      simp [step, put, hkeyword, hlater, putPlain, announced]
    have hspare' := hfirst.2
    rw [hsteps, List.singleton_append, stolen_cons_eq_zero, hstep] at hspare'
    have hapart : Apart (tok :: out ++ [keyword]) := by
      refine hline.apart.replace ?_
      exact List.rel_append hreplaces (.cons (.refl keyword) .nil)
    obtain ⟨out', closers, hout', hleaves, htokens, hapart'⟩ := puts_block hitems hbody
      (show column < column + count by omega) rest.of_indented hspare'.2 hapart
    refine ⟨out ++ keyword :: out', closers, ?_, ?_, ?_, by simpa using hapart'⟩
    · rw [steps_append, hsteps, List.singleton_append, steps_cons, hstep, hout']
      rfl
    · rw [steps_append, hsteps, List.singleton_append, steps_cons, hstep]
      exact hleaves
    · rw [← hout, ← hkeyword]
      simpa using htokens

end LaysItem

/-! ## Whole texts -/

theorem program_concat {toks : List Lexeme} {eof : Lexeme} (heof : eof.token = .eof)
    (hreal : ∀ tok ∈ toks, tok.token ≠ .eof ∧ tok.token.isComment = false) :
    program (toks ++ [eof]) = toks := by
  rw [program_append heof fun tok htok => (hreal tok htok).1]
  exact List.filter_eq_self.2 fun tok htok => by simp [(hreal tok htok).2]

/-- A text in lines is resolved without problems: its items are between
markers, and its dots stand where they stood. -/
theorem resolve_lines {liness : List (List Line)} {uss : List (List Token)} {toks : List Lexeme}
    {eof : Lexeme} (h : List.Forall₂ LaysItem liness uss) (hlines : Lines 1 liness.flatten toks)
    (hreal : ∀ tok ∈ toks, tok.token ≠ .eof ∧ tok.token.isComment = false) (heof : eof.token = .eof)
    (hspare : stolen .initial toks = 0) : ∃ out, resolve (toks ++ [eof]) = ⟨out ++ [eof], []⟩ ∧
      out.map (·.token) = (Style.marked .blockSep).block uss ∧
      (out ++ [eof]).IsChain Joined := by
  have hprogram : toks.filter (!·.token.isComment) = toks :=
    List.filter_eq_self.2 fun tok htok => by simp [(hreal tok htok).2]
  rw [resolve_concat heof fun tok htok => (hreal tok htok).1, hprogram]
  obtain ⟨out, closers, hout, hleaves, htokens, hapart⟩ :=
    puts_block h LetsBraced.nil Nat.zero_lt_one hlines hspare .nil
  obtain ⟨marks, hmarks, hfinish⟩ := hleaves.finish eof
  refine ⟨out ++ marks, ?_, ?_, ?_⟩
  · rw [State.initial, hout, hfinish]
    change TokenStream.mk (out ++ (marks ++ [eof])) [] = _
    rw [List.append_assoc]
  · rw [List.map_append, hmarks]
    exact htokens
  · have hmarks' := hleaves.apart (hmarks.trans (List.append_nil _).symm) (by simp)
    have heof' : Apart [eof] := .of_ne (by simp [heof])
    exact ((hapart.append hmarks').append heof').joined

end Layout

end Offside
