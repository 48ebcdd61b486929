-- SUMMARY: The items of a block in resolved layout, and that looking ahead in one does not reach into the next.
import Mathlib.Data.List.Infix
import Offside.Proofs.Layout.Blocks

/-! # Segments of blocks

The own separators of a block divide it into segments. A parser looks ahead in
a segment by counting openers and closers, which need not match what layout
resolution has found open. `Segmented` says that its scans give the same as if
the block ended with the segment. -/

namespace Offside

/-! ## Looking ahead -/

/-- The depth that a scan counts after a token. -/
def Cursor.scanDepth (depth : Nat) (t : Token) : Nat :=
  if t.isOpener then depth + 1 else if t.isCloser then depth - 1 else depth

/-- Looking ahead over `toks`, when `depth` brackets and blocks are open, gives
the same whether `b` or `b'` is after them. -/
structure ScansAlike (depth : Nat) (toks b b' : List Lexeme) : Prop where
  find : ∀ wanted,
    Cursor.findInItem wanted depth (toks ++ b) = Cursor.findInItem wanted depth (toks ++ b')
  colon : (0 < depth ∨ ∃ tok rest, toks = tok :: rest ∧ tok.token.isOpener = true) →
    Cursor.colonInside depth (toks ++ b) = Cursor.colonInside depth (toks ++ b')

namespace ScansAlike

variable {depth : Nat} {tok : Lexeme} {toks b b' : List Lexeme}

theorem refl (depth : Nat) (toks b : List Lexeme) : ScansAlike depth toks b b :=
  ⟨fun _ => rfl, fun _ => rfl⟩

theorem cons (h : ScansAlike (Cursor.scanDepth depth tok.token) toks b b') :
    ScansAlike depth (tok :: toks) b b' := by
  cases hopens : tok.token.isOpener with
  | true =>
    rw [Cursor.scanDepth, hopens, if_pos rfl] at h
    refine ⟨fun wanted => ?_, fun _ => ?_⟩
    · simp only [List.cons_append, Cursor.findInItem, hopens, if_true, h.find]
    · simp only [List.cons_append, Cursor.colonInside, hopens, if_true, h.colon (.inl (Nat.succ_pos _))]
  | false =>
    cases hcloses : tok.token.isCloser with
    | true =>
      rw [Cursor.scanDepth, hopens, hcloses, if_neg Bool.false_ne_true, if_pos rfl] at h
      refine ⟨fun wanted => ?_, fun _ => ?_⟩
      · simp [Cursor.findInItem, hopens, hcloses, h.find]
      · by_cases hdepth : 1 < depth
        · simp [Cursor.colonInside, hopens, hcloses, h.colon (.inl (by omega))]
        · simp [Cursor.colonInside, hopens, hcloses, hdepth]
    | false =>
      rw [Cursor.scanDepth, hopens, hcloses, if_neg Bool.false_ne_true,
        if_neg Bool.false_ne_true] at h
      refine ⟨fun wanted => ?_, fun hdepth => ?_⟩
      · simp [Cursor.findInItem, hopens, hcloses, h.find]
      · have hpos : 0 < depth := by simpa [hopens] using hdepth
        simp [Cursor.colonInside, hopens, hcloses, h.colon (.inl hpos)]

/-- A scan of some tokens goes on in what is behind them. -/
theorem behind {rest : List Lexeme} (h : ScansAlike 0 (toks ++ rest) b b') :
    ScansAlike 0 toks (rest ++ b) (rest ++ b') := by
  refine ⟨fun wanted => by simpa using h.find wanted, fun hopens => ?_⟩
  obtain ⟨tok, others, rfl, htok⟩ : ∃ tok others, toks = tok :: others ∧ tok.token.isOpener = true := by
    simpa using hopens
  simpa using h.colon (.inr ⟨tok, others ++ rest, rfl, htok⟩)

theorem findInItem_ends (h : ∀ tok ∈ b, tok.token = .blockEnd) (wanted : List Token) (depth : Nat) :
    Cursor.findInItem wanted depth b = none := by
  induction b generalizing depth with
  | nil => rfl
  | cons tok b ih =>
    obtain ⟨htok, hb⟩ := List.forall_mem_cons.1 h
    simp [Cursor.findInItem, htok, Token.isSeparator, Token.isCloser, Token.isOpener, ih hb]

theorem colonInside_ends (h : ∀ tok ∈ b, tok.token = .blockEnd) (depth : Nat) :
    Cursor.colonInside depth b = false := by
  induction b generalizing depth with
  | nil => rfl
  | cons tok b ih =>
    obtain ⟨htok, hb⟩ := List.forall_mem_cons.1 h
    simp [Cursor.colonInside, htok, Token.isCloser, Token.isOpener, ih hb]

/-- Nothing is found among block ends. -/
theorem of_ends (hb : ∀ tok ∈ b, tok.token = .blockEnd) (hb' : ∀ tok ∈ b', tok.token = .blockEnd)
    (depth : Nat) (toks : List Lexeme) : ScansAlike depth toks b b' := by
  induction toks generalizing depth with
  | nil =>
    exact ⟨fun wanted => (findInItem_ends hb wanted depth).trans (findInItem_ends hb' wanted depth).symm,
      fun _ => (colonInside_ends hb depth).trans (colonInside_ends hb' depth).symm⟩
  | cons tok toks ih => exact (ih _).cons

end ScansAlike

/-- Ends an item that holds no semicolon outside brackets. -/
def Token.endsSegment (t : Token) : Bool := t = .blockSep || t = .blockEnd

/-- A scan stops at the end of a segment, if nothing is open there. -/
theorem ScansAlike.nil {x x' : Lexeme} {r r' : List Lexeme} (hx : x.token.endsSegment = true)
    (hx' : x'.token.endsSegment = true) : ScansAlike 0 [] (x :: r) (x' :: r') := by
  have hnone : ∀ {x : Lexeme} {r : List Lexeme}, x.token.endsSegment = true →
      ∀ wanted, Cursor.findInItem wanted 0 (x :: r) = none := by
    intro x r hx wanted
    rcases (by simpa [Token.endsSegment] using hx : x.token = .blockSep ∨ x.token = .blockEnd)
      with h | h <;> simp [Cursor.findInItem, h, Token.isSeparator, Token.isCloser]
  exact ⟨fun wanted => (hnone hx wanted).trans (hnone hx' wanted).symm, by simp⟩

/-- As many ends as blocks are open close these. -/
theorem blocksClose_ends {toks : List Lexeme} (h : ∀ tok ∈ toks, tok.token = .blockEnd) :
    blocksClose false toks.length toks = true := by
  induction toks with
  | nil => rfl
  | cons tok toks ih =>
    obtain ⟨htok, htoks⟩ := List.forall_mem_cons.1 h
    exact (blocksClose_end htok).2 ⟨by simp, ih htoks⟩

namespace Layout

variable {inner outer outer' : List Enclosure} {tok : Lexeme} {toks : List Lexeme}

/-! ## Segments -/

/-- The tokens of a segment, with `b` after it: its blocks are closed, and no
scan in it tells `b` from the end of the block. -/
structure IsSegment (segment b : List Lexeme) : Prop where
  closes : blocksClose false 0 segment = true
  scans : ∀ close : Lexeme, close.token = .blockEnd → ∀ toks, toks <:+ segment →
    ScansAlike 0 toks b [close]

/-- The same of the rest of a segment in which `inner` is open. -/
structure RestOfSegment (inner : List Enclosure) (segment b : List Lexeme) : Prop where
  closes : blocksClose false (inner.count .block) segment = true
  scans : ∀ close : Lexeme, close.token = .blockEnd → ∀ depth, depth ≤ inner.length →
    ScansAlike depth segment b [close]
  inside : ∀ close : Lexeme, close.token = .blockEnd → ∀ toks, toks <:+ segment →
    ScansAlike 0 toks b [close]

/-- A token in a block either belongs to the block itself, or it changes what is
open inside. A scan never counts more than is open. -/
theorem Moves.inside {t : Token} (h : Moves (inner ++ .block :: outer) t outer') :
    (inner = [] ∧ (t = .blockSep ∧ outer' = .block :: outer ∨ t = .blockEnd ∧ outer' = outer)) ∨
    ∃ inner', outer' = inner' ++ .block :: outer ∧
      (∀ depth, depth ≤ inner.length → Cursor.scanDepth depth t ≤ inner'.length) ∧
      ∀ tok toks, tok.token = t → blocksClose false (inner'.count .block) toks = true →
        blocksClose false (inner.count .block) (tok :: toks) = true := by
  -- a bracket is on neither side of a marker
  have hvirtual : ∀ {t : Token}, (t = .lparen ∨ t = .lbrace) ∨ t.closesBracket = true →
      t.isVirtual = false := by
    rintro t ((rfl | rfl) | h)
    · rfl
    · rfl
    · rcases (by simpa [Token.closesBracket] using h : t = .rparen ∨ t = .rbrace) with rfl | rfl <;> rfl
  have hcloser : ∀ {t : Token}, t.closesBracket = true → t.isOpener = false ∧ t.isCloser = true := by
    intro t h
    rcases (by simpa [Token.closesBracket] using h : t = .rparen ∨ t = .rbrace) with rfl | rfl <;>
      exact ⟨rfl, rfl⟩
  generalize hstack : inner ++ .block :: outer = stack at h
  cases h with
  | start =>
    subst hstack
    refine .inr ⟨.block :: inner, rfl, fun depth hdepth => ?_, fun tok toks ht h => ?_⟩
    · simpa [Cursor.scanDepth, Token.isOpener] using hdepth
    · rw [blocksClose_start ht]
      simpa using h
  | sep =>
    cases inner with
    | nil =>
      obtain ⟨-, rfl⟩ := List.cons.inj hstack
      exact .inl ⟨rfl, .inl ⟨rfl, rfl⟩⟩
    | cons frame inner =>
      obtain ⟨rfl, rfl⟩ := List.cons.inj hstack
      refine .inr ⟨.block :: inner, rfl, fun depth hdepth => ?_, fun tok toks ht h => ?_⟩
      · simpa [Cursor.scanDepth, Token.isOpener, Token.isCloser] using hdepth
      · exact (blocksClose_sep ht).2 ⟨.inr (by simp), h⟩
  | stop =>
    cases inner with
    | nil =>
      obtain ⟨-, rfl⟩ := List.cons.inj hstack
      exact .inl ⟨rfl, .inr ⟨rfl, rfl⟩⟩
    | cons frame inner =>
      obtain ⟨rfl, rfl⟩ := List.cons.inj hstack
      refine .inr ⟨inner, rfl, fun depth hdepth => ?_, fun tok toks ht h => ?_⟩
      · simpa [Cursor.scanDepth, Token.isOpener, Token.isCloser] using hdepth
      · exact (blocksClose_end ht).2 ⟨by simp, by simpa using h⟩
  | opening hopens =>
    subst hstack
    refine .inr ⟨.bracket :: inner, rfl, fun depth hdepth => ?_, fun tok toks ht h => ?_⟩
    · rcases hopens with rfl | rfl <;> simpa [Cursor.scanDepth, Token.isOpener] using hdepth
    · rw [blocksClose_plain (ht ▸ hvirtual (.inl hopens))]
      simpa using h
  | closing hcloses =>
    cases inner with
    | nil => simp at hstack
    | cons frame inner =>
      obtain ⟨rfl, rfl⟩ := List.cons.inj hstack
      refine .inr ⟨inner, rfl, fun depth hdepth => ?_, fun tok toks ht h => ?_⟩
      · simpa [Cursor.scanDepth, hcloser hcloses] using hdepth
      · rw [blocksClose_plain (ht ▸ hvirtual (.inr hcloses))]
        simpa using h
  | stray hcloses =>
    subst hstack
    refine .inr ⟨inner, rfl, fun depth hdepth => ?_, fun tok toks ht h => ?_⟩
    · simpa [Cursor.scanDepth, hcloser hcloses] using Nat.le_succ_of_le hdepth
    · rwa [blocksClose_plain (ht ▸ hvirtual (.inr hcloses))]
  | plain hplain hopens hcloses =>
    subst hstack
    refine .inr ⟨inner, rfl, fun depth hdepth => ?_, fun tok toks ht h => ?_⟩
    · simpa [Cursor.scanDepth, hopens, hcloses] using hdepth
    · rwa [blocksClose_plain (ht ▸ hplain)]

/-- The rest of a block begins with the rest of a segment, its own separator or
end after it. -/
theorem Rest.exists_segment (h : Rest (inner ++ .block :: outer) toks) :
    ∃ segment x rest, toks = segment ++ x :: rest ∧ RestOfSegment inner segment (x :: rest) ∧
      (x.token = .blockSep ∧ Rest (.block :: outer) rest ∨
        x.token = .blockEnd ∧ Rest outer rest) := by
  generalize hstack : inner ++ .block :: outer = stack at h
  induction h generalizing inner with
  | @close stack toks areEnds hlength =>
    subst hstack
    -- the ends of what is open inside, the end of the block, and the ends outside of it
    obtain ⟨segment, x, rest, rfl, hsegment⟩ : ∃ segment x rest, toks = segment ++ x :: rest ∧
        segment.length = inner.count .block := by
      have hshort : inner.count .block < toks.length := by
        simp only [List.count_append, List.count_cons_self] at hlength
        omega
      refine ⟨toks.take (inner.count .block), toks[inner.count .block],
        toks.drop (inner.count .block + 1), ?_, List.length_take_of_le (Nat.le_of_lt hshort)⟩
      rw [← List.drop_eq_getElem_cons hshort, List.take_append_drop]
    obtain ⟨hends, hx, hrest⟩ : (∀ tok ∈ segment, tok.token = .blockEnd) ∧ x.token = .blockEnd ∧
        ∀ tok ∈ rest, tok.token = .blockEnd := by
      simpa [or_imp, forall_and] using areEnds
    have hscans : ∀ close : Lexeme, close.token = .blockEnd → ∀ depth toks,
        ScansAlike depth toks (x :: rest) [close] := fun close hclose depth toks =>
      .of_ends (List.forall_mem_cons.2 ⟨hx, hrest⟩) (by simpa using hclose) depth toks
    refine ⟨segment, x, rest, rfl, ⟨?_, ?_, ?_⟩, .inr ⟨hx, .close hrest ?_⟩⟩
    · rw [← hsegment]
      exact blocksClose_ends hends
    · exact fun close hclose depth _ => hscans close hclose depth segment
    · exact fun close hclose toks _ => hscans close hclose 0 toks
    · simp only [List.count_append, List.count_cons_self, List.length_append, List.length_cons] at hlength
      omega
  | @cons stack outer' tok toks moves rest ih =>
    subst hstack
    rcases moves.inside with ⟨rfl, hown⟩ | ⟨inner', rfl, hdepth, hcloses⟩
    · have hends : tok.token.endsSegment = true := by
        rcases hown with ⟨ht, -⟩ | ⟨ht, -⟩ <;> rw [ht] <;> rfl
      have hscans : ∀ close : Lexeme, close.token = .blockEnd → ScansAlike 0 [] (tok :: toks) [close] :=
        fun close hclose => .nil hends (by rw [hclose]; rfl)
      refine ⟨[], tok, toks, rfl, ⟨by simp, ?_, ?_⟩, ?_⟩
      · rintro close hclose depth hdepth
        obtain rfl := Nat.le_zero.1 hdepth
        exact hscans close hclose
      · rintro close hclose toks htoks
        obtain rfl := List.suffix_nil.1 htoks
        exact hscans close hclose
      · rcases hown with ⟨ht, rfl⟩ | ⟨ht, rfl⟩
        · exact .inl ⟨ht, rest⟩
        · exact .inr ⟨ht, rest⟩
    · obtain ⟨segment, x, others, rfl, hsegment, hx⟩ := ih rfl
      have hscans : ∀ close : Lexeme, close.token = .blockEnd → ∀ depth, depth ≤ inner.length →
          ScansAlike depth (tok :: segment) (x :: others) [close] := fun close hclose depth h =>
        (hsegment.scans close hclose _ (hdepth depth h)).cons
      refine ⟨tok :: segment, x, others, rfl, ⟨hcloses tok segment rfl hsegment.closes, hscans, ?_⟩, hx⟩
      rintro close hclose toks htoks
      rcases List.suffix_cons_iff.1 htoks with rfl | htoks
      · exact hscans close hclose 0 (Nat.zero_le _)
      · exact hsegment.inside close hclose toks htoks

/-- The contents of a block that ends with `stop`, segment by segment. -/
inductive Segmented (stop : Lexeme) (after : List Lexeme) : List Lexeme → Prop
  | last {segment} (isSegment : IsSegment segment (stop :: after)) : Segmented stop after segment
  | cons {segment sep body} (isSegment : IsSegment segment (sep :: (body ++ stop :: after)))
      (isSep : sep.token = .blockSep) (rest : Segmented stop after body) :
      Segmented stop after (segment ++ sep :: body)

theorem Segmented.blocksClose {stop : Lexeme} {after body : List Lexeme}
    (h : Segmented stop after body) : blocksClose true 0 body = true := by
  induction h with
  | last isSegment =>
    have hnil : Offside.blocksClose true 0 [] = true := rfl
    simpa using blocksClose_append isSegment.closes hnil
  | cons isSegment isSep _ ih =>
    exact blocksClose_append isSegment.closes ((blocksClose_sep isSep).2 ⟨.inl rfl, ih⟩)

/-- The rest of a block holds its end. -/
theorem Rest.exists_stop (h : Rest (.block :: outer) toks) :
    ∃ body stop after, toks = body ++ stop :: after ∧ stop.token = .blockEnd ∧
      Segmented stop after body ∧ Rest outer after := by
  induction hn : toks.length using Nat.strongRecOn generalizing toks with
  | _ n ih =>
    subst hn
    have hopen : Rest ([] ++ .block :: outer) toks := h
    obtain ⟨segment, x, rest, rfl, hsegment, hx⟩ := hopen.exists_segment
    have hsegment : IsSegment segment (x :: rest) := ⟨hsegment.closes, hsegment.inside⟩
    rcases hx with ⟨hx, hrest⟩ | ⟨hx, hrest⟩
    · obtain ⟨body, stop, after, rfl, hstop, hbody, hafter⟩ := ih rest.length (by simp; omega) hrest rfl
      exact ⟨segment ++ x :: body, stop, after, by simp, hstop, .cons hsegment hx hbody, hafter⟩
    · exact ⟨segment, x, rest, rfl, hx, .last hsegment, hrest⟩

theorem Rest.of_append {pre : List Lexeme} (h : Rest outer (pre ++ toks)) :
    ∃ outer', Rest outer' toks := by
  induction pre generalizing outer with
  | nil => exact ⟨outer, h⟩
  | cons tok pre ih =>
    cases h with
    | close areEnds _ =>
      have hrest : Rest (List.replicate (pre ++ toks).length .block) (pre ++ toks) :=
        .close (List.forall_mem_cons.1 areEnds).2 (by simp)
      exact ih hrest
    | cons _ rest => exact ih rest

end Layout

end Offside
