-- SUMMARY: Resolved layout is balanced, whatever brackets and columns the program has.
import Offside.Proofs.Layout.Blocks

/-! # Balance of resolved layout

`Rest` follows what is open token by token. Counting the blocks among it gives
the balance of starts and ends at every place of resolved layout, for programs
that are malformed in any way: `resolve_balanced`. -/

namespace Offside

namespace Layout

/-- How many of the lexemes are the token `t`. -/
def occurrences (t : Token) (toks : List Lexeme) : Nat := toks.countP (·.token = t)

/-- Blocks are closed after they are opened, and all of them are. Separators
stand in blocks, and the end of file stands at the end alone. -/
structure Balanced (out : List Lexeme) : Prop where
  closed_le : ∀ pre, pre <+: out → occurrences .blockEnd pre ≤ occurrences .blockStart pre
  closed_eq : occurrences .blockEnd out = occurrences .blockStart out
  inside : ∀ pre sep post, out = pre ++ sep :: post → sep.token = .blockSep →
    occurrences .blockEnd pre < occurrences .blockStart pre
  eof_last : ∃ body eof, out = body ++ [eof] ∧ eof.token = .eof ∧ ∀ tok ∈ body, tok.token ≠ .eof

@[simp] theorem occurrences_nil (t : Token) : occurrences t [] = 0 := rfl

theorem occurrences_cons (t : Token) (tok : Lexeme) (toks : List Lexeme) :
    occurrences t (tok :: toks) = occurrences t toks + if tok.token = t then 1 else 0 := by
  simp [occurrences, List.countP_cons]

/-! ## Counting what is open -/

/-- One token changes the number of open blocks by the block it opens or closes. -/
theorem Moves.count_block {outer outer' : List Enclosure} {t : Token} (h : Moves outer t outer') :
    outer'.count .block + (if t = .blockEnd then 1 else 0) =
      outer.count .block + (if t = .blockStart then 1 else 0) := by
  cases h with
  | start | sep | stop => simp
  | opening isOpening => rcases isOpening with rfl | rfl <;> simp
  | closing isClosing | stray isClosing => cases t <;> simp_all [Token.closesBracket]
  | plain notVirtual => cases t <;> simp_all [Token.isVirtual]

/-- A separator has a block around it. -/
theorem Moves.pos_of_sep {outer outer' : List Enclosure} (h : Moves outer .blockSep outer') :
    0 < outer.count .block := by
  cases h with
  | sep => simp
  | opening isOpening => simp at isOpening
  | closing isClosing | stray isClosing => simp [Token.closesBracket] at isClosing
  | plain notVirtual => simp [Token.isVirtual] at notVirtual

namespace Rest

variable {outer : List Enclosure} {tok : Lexeme} {toks pre post : List Lexeme}

/-- What may follow after the first token. At the end of file it does not matter
which brackets are still open, so only blocks are kept. -/
theorem tail (h : Rest outer (tok :: toks)) : ∃ outer', Rest outer' toks ∧
    outer'.count .block + (if tok.token = .blockEnd then 1 else 0) =
      outer.count .block + (if tok.token = .blockStart then 1 else 0) := by
  cases h with
  | cons moves rest => exact ⟨_, rest, moves.count_block⟩
  | close areEnds length_eq =>
    obtain ⟨hfirst, hothers⟩ := List.forall_mem_cons.1 areEnds
    refine ⟨List.replicate toks.length .block, .close hothers (by simp), ?_⟩
    simp [hfirst, ← length_eq]

/-- What may follow after a part of the tokens, and how many blocks are open
there. -/
theorem after (h : Rest outer (pre ++ post)) : ∃ outer', Rest outer' post ∧
    outer'.count .block + occurrences .blockEnd pre =
      outer.count .block + occurrences .blockStart pre := by
  induction pre generalizing outer with
  | nil => exact ⟨outer, h, rfl⟩
  | cons tok pre ih =>
    obtain ⟨outer₁, hrest, hcount⟩ := h.tail
    obtain ⟨outer', hpost, hcount'⟩ := ih hrest
    refine ⟨outer', hpost, ?_⟩
    rw [occurrences_cons, occurrences_cons]
    omega

/-- Before a separator some block is open. -/
theorem pos_of_sep (h : Rest outer (tok :: toks)) (hsep : tok.token = .blockSep) :
    0 < outer.count .block := by
  cases h with
  | close areEnds => simp [areEnds tok List.mem_cons_self] at hsep
  | cons moves => exact (hsep ▸ moves).pos_of_sep

theorem closed_le (h : Rest [] (pre ++ post)) :
    occurrences .blockEnd pre ≤ occurrences .blockStart pre := by
  obtain ⟨outer, -, hcount⟩ := h.after
  rw [List.count_nil] at hcount
  omega

theorem closed_eq (h : Rest [] toks) :
    occurrences .blockEnd toks = occurrences .blockStart toks := by
  rw [← List.append_nil toks] at h
  obtain ⟨outer, hend, hcount⟩ := h.after
  cases hend with
  | close areEnds length_eq =>
    rw [← length_eq, List.count_nil, List.length_nil] at hcount
    omega

theorem closed_lt_of_sep (h : Rest [] (pre ++ tok :: post)) (hsep : tok.token = .blockSep) :
    occurrences .blockEnd pre < occurrences .blockStart pre := by
  obtain ⟨outer, hpost, hcount⟩ := h.after
  have hpos := hpost.pos_of_sep hsep
  rw [List.count_nil] at hcount
  omega

end Rest

/-! ## Whole programs -/

/-- Resolved layout as a body and the end of file. The body follows what is open
from nothing on, and it is the program with markers put in. -/
theorem exists_body_resolve {toks : List Lexeme}
    (hvirtual : ∀ tok ∈ toks, tok.token.isVirtual = false) :
    ∃ body eof, (resolve toks).lexemes = body ++ [eof] ∧ eof.token = .eof ∧ Rest [] body ∧
      LaidOut (program toks) body := by
  obtain ⟨eof, heof, hresolve⟩ := resolve_eq toks
  have hprogram : ∀ tok ∈ program toks, tok.token.isVirtual = false := fun tok htok =>
    hvirtual tok (program_subset htok)
  obtain ⟨out, hout, hrest⟩ := Rest.exists_finish eof (steps .initial (program toks)).2
  obtain ⟨out', hout', hmarkers⟩ := LaidOut.finish (steps .initial (program toks)).2 eof
  obtain rfl : out = out' := List.append_cancel_right (hout.symm.trans hout')
  refine ⟨(steps .initial (program toks)).1.lexemes ++ out, eof, ?_, heof, ?_, ?_⟩
  · rw [hresolve, TokenStream.lexemes_append, hout, List.append_assoc]
  · have hsteps : Rest (enclosures State.initial.stack) _ := Rest.steps hprogram hrest
    exact hsteps
  · simpa using (LaidOut.steps .initial (program toks)).append hmarkers

/-- The body of resolved layout holds no end of file. -/
theorem LaidOut.ne_eof {toks body : List Lexeme} (h : LaidOut (program toks) body) :
    ∀ tok ∈ body, tok.token ≠ .eof := by
  intro tok htok heof
  have hmem : tok ∈ program toks := h.mem_of_mem htok (by rw [heof]; rfl)
  exact ne_eof_of_mem_program hmem heof

/-- Resolved layout is balanced, however malformed the program is. -/
theorem resolve_balanced (toks : List Lexeme)
    (hvirtual : ∀ tok ∈ toks, tok.token.isVirtual = false) : Balanced (resolve toks).lexemes := by
  obtain ⟨body, eof, hout, heof, hrest, hlaid⟩ := exists_body_resolve hvirtual
  -- The end of file counts neither as a start nor as an end.
  have hends : occurrences .blockEnd (body ++ [eof]) = occurrences .blockEnd body := by
    simp [occurrences, heof]
  have hstarts : occurrences .blockStart (body ++ [eof]) = occurrences .blockStart body := by
    simp [occurrences, heof]
  have hclosed :
      occurrences .blockEnd (body ++ [eof]) = occurrences .blockStart (body ++ [eof]) := by
    rw [hends, hstarts, hrest.closed_eq]
  rw [hout]
  refine ⟨fun pre hpre => ?_, hclosed, fun pre sep post hsplit hsep => ?_, ?_⟩
  · rcases List.prefix_concat_iff.1 hpre with rfl | ⟨post, rfl⟩
    · exact Nat.le_of_eq hclosed
    · exact hrest.closed_le
  · rcases List.eq_nil_or_concat post with rfl | ⟨post, last, rfl⟩
    · obtain rfl : eof = sep := List.singleton_inj.1 (List.append_inj' hsplit rfl).2
      simp [heof] at hsep
    · have hbody : body ++ [eof] = (pre ++ sep :: post) ++ [last] := by simpa using hsplit
      rw [(List.append_inj' hbody rfl).1] at hrest
      exact hrest.closed_lt_of_sep hsep
  · exact ⟨body, eof, rfl, heof, hlaid.ne_eof⟩

/-- A stray closing bracket, a block in braces that is never closed, an `in`
without a `let`, a parenthesis that closes none, and columns that go back and
forth. -/
theorem resolve_balanced_malformed :
    let toks : List Lexeme :=
      [⟨.rparen, ⟨0, 1⟩, 1, 9, true⟩, ⟨.kwWhere, ⟨1, 2⟩, 2, 3, true⟩, ⟨.lbrace, ⟨2, 3⟩, 3, 1, true⟩,
        ⟨.kwIn, ⟨3, 4⟩, 4, 7, true⟩, ⟨.kwLet, ⟨4, 5⟩, 4, 2, true⟩, ⟨.unit, ⟨5, 6⟩, 5, 4, true⟩,
        ⟨.rparen, ⟨6, 7⟩, 6, 1, true⟩, ⟨.eof, ⟨7, 7⟩, 7, 1, false⟩, ⟨.rbrace, ⟨8, 9⟩, 8, 1, true⟩]
    (∀ tok ∈ toks, tok.token.isVirtual = false) ∧ Balanced (resolve toks).lexemes := by
  intro toks
  have hvirtual : ∀ tok ∈ toks, tok.token.isVirtual = false := by decide
  exact ⟨hvirtual, resolve_balanced toks hvirtual⟩

end Layout

end Offside
