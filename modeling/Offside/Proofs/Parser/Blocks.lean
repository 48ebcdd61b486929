-- SUMMARY: A block is read to its end, item by item, whatever the items hold.
import Offside.Proofs.Parser.Twin

/-! # Blocks side by side

An item that does not parse is skipped up to the end of its segment and no
further. So the items of a segment are read in the same way in two streams that
differ only behind it (`exists_items`), and a block is read to its own end
(`exists_block`). -/

namespace Offside

/-! ## Skipping -/

theorem Token.isSeparator_eq_false {t : Token} :
    t.isSeparator = false ↔ t ≠ .blockSep ∧ t ≠ .semicolon := by
  cases t <;> simp [isSeparator]

theorem Token.endsSegment_eq_false {t : Token} (hsep : t.isSeparator = false)
    (hend : t ≠ .blockEnd) : t.endsSegment = false := by
  cases t <;> simp_all [Token.endsSegment, Token.isSeparator]

/-- Skipping an item over a token of the text ends before a semicolon, or goes on
behind the token. -/
theorem Cursor.itemLength_text {tok : Lexeme} (ht : tok.token.hasText = true) (blocks brackets : Nat) :
    (blocks = 0 ∧ ∀ toks, itemLength blocks brackets (tok :: toks) = 0) ∨
    ∃ brackets', ∀ toks,
      itemLength blocks brackets (tok :: toks) = itemLength blocks brackets' toks + 1 := by
  by_cases hsemicolon : tok.token = .semicolon
  · by_cases hopen : blocks = 0 ∧ brackets = 0
    · exact .inl ⟨hopen.1, fun toks => by simp [itemLength, hsemicolon, hopen]⟩
    · exact .inr ⟨brackets, fun toks => by simp [itemLength, hsemicolon, hopen]⟩
  · right
    rw [Token.hasText] at ht
    cases htok : tok.token with
    | lparen | lbrace => exact ⟨brackets + 1, fun toks => by simp [itemLength, htok]⟩
    | rparen | rbrace => exact ⟨brackets - 1, fun toks => by simp [itemLength, htok]⟩
    | blockStart | blockSep | blockEnd | eof => simp [htok, Token.isVirtual] at ht
    | semicolon => exact absurd htok hsemicolon
    | _ => exact ⟨brackets, fun toks => by simp [itemLength, htok]⟩

/-- The end of an item is the same whatever is behind its segment. -/
theorem Boundary.exists_itemLength {b b' toks : List Lexeme} (hb : Boundary b b') {blocks : Nat}
    (hcloses : blocksClose false blocks toks = true) (hproper : ∀ tok ∈ toks, tok.IsProper)
    (brackets : Nat) :
    ∃ n, n ≤ toks.length ∧ Cursor.itemLength blocks brackets (toks ++ b) = n ∧
      Cursor.itemLength blocks brackets (toks ++ b') = n ∧
      blocksClose false 0 (toks.drop n) = true := by
  induction toks generalizing blocks brackets with
  | nil =>
    obtain rfl := blocksClose_nil.1 hcloses
    obtain ⟨x, r, x', r', rfl, rfl, hx, hx', -⟩ := hb.exists_eq
    have hzero : ∀ {x : Lexeme} {r : List Lexeme}, x.token.endsSegment = true →
        Cursor.itemLength 0 brackets (x :: r) = 0 := by
      intro x r hx
      rcases Twin.endsSegment_iff.1 hx with ht | ht <;> simp [Cursor.itemLength, ht]
    exact ⟨0, Nat.le_refl _, hzero hx, hzero hx', rfl⟩
  | cons tok toks ih =>
    obtain ⟨htok, hproper⟩ := List.forall_mem_cons.1 hproper
    rcases tok.token.marker_cases with ht | ht | ht | ht
    · rw [blocksClose_start ht] at hcloses
      obtain ⟨n, hn, h, h', hdrop⟩ := ih hcloses hproper brackets
      exact ⟨n + 1, by simpa using hn, by simp [Cursor.itemLength, ht, h],
        by simp [Cursor.itemLength, ht, h'], hdrop⟩
    · obtain ⟨hblocks, hcloses⟩ := (blocksClose_sep ht).1 hcloses
      have hblocks : blocks ≠ 0 := by simpa [Nat.pos_iff_ne_zero] using hblocks
      obtain ⟨n, hn, h, h', hdrop⟩ := ih hcloses hproper brackets
      exact ⟨n + 1, by simpa using hn, by simp [Cursor.itemLength, ht, hblocks, h],
        by simp [Cursor.itemLength, ht, hblocks, h'], hdrop⟩
    · obtain ⟨hblocks, hcloses⟩ := (blocksClose_end ht).1 hcloses
      have hblocks : blocks ≠ 0 := Nat.pos_iff_ne_zero.1 hblocks
      obtain ⟨n, hn, h, h', hdrop⟩ := ih hcloses hproper brackets
      exact ⟨n + 1, by simpa using hn, by simp [Cursor.itemLength, ht, hblocks, h],
        by simp [Cursor.itemLength, ht, hblocks, h'], hdrop⟩
    · have htext : tok.token.hasText = true := by simp [Token.hasText, ht, htok.ne_eof]
      rcases Cursor.itemLength_text htext blocks brackets with ⟨rfl, hzero⟩ | ⟨brackets', hsucc⟩
      · exact ⟨0, Nat.zero_le _, hzero _, hzero _, hcloses⟩
      · rw [blocksClose_plain ht] at hcloses
        obtain ⟨n, hn, h, h', hdrop⟩ := ih hcloses hproper brackets'
        exact ⟨n + 1, by simpa using hn, by rw [List.cons_append, hsucc, h],
          by rw [List.cons_append, hsucc, h'], hdrop⟩

/-- An item begins with a token that is skipped with it. -/
theorem Cursor.itemLength_pos {tok : Lexeme} (hsep : tok.token.isSeparator = false)
    (hend : tok.token ≠ .blockEnd) (heof : tok.token ≠ .eof) (toks : List Lexeme) :
    0 < itemLength 0 0 (tok :: toks) := by
  cases htok : tok.token <;> simp_all [itemLength, Token.isSeparator]

namespace Twin

variable {b b' : List Lexeme} {same : Prop} {c c' : Cursor}

theorem skip {toks : List Lexeme} {n : Nat} (h : Twin b b' same c c') (hc : c.ahead = toks ++ b)
    (hc' : c'.ahead = toks ++ b') (hn : n ≤ toks.length) (hshared : Shared b b' (toks.drop n)) :
    Twin b b' same (c.skip n) (c'.skip n) := by
  refine ⟨h.boundary, ⟨toks.drop n, hshared, ?_, ?_⟩, fun hsame => ?_⟩
  · rw [Cursor.ahead_skip, hc, List.drop_append_of_le_length hn]
  · rw [Cursor.ahead_skip, hc', List.drop_append_of_le_length hn]
  · rw [Cursor.lastEnd_skip, Cursor.lastEnd_skip, hc, hc', List.take_append_of_le_length hn,
      List.take_append_of_le_length hn, h.lastEnd hsame]

theorem skipItem (h : Twin b b' same c c') : Twin b b' same c.skipItem c'.skipItem := by
  obtain ⟨toks, hshared, hc, hc'⟩ := h.exists_ahead
  obtain ⟨n, hn, hlength, hlength', hdrop⟩ :=
    h.boundary.exists_itemLength hshared.closes hshared.proper 0
  rw [Cursor.skipItem, Cursor.skipItem, hc, hc', hlength, hlength']
  exact h.skip hc hc' hn (hshared.suffix (List.drop_suffix n toks) hdrop)

end Twin

namespace Parser

variable {α : Type} {p : Parser α} {b b' : List Lexeme} {same : Prop} {c c' : Cursor}

/-! ## One item -/

/-- An item is read in both streams, at least one token of it. It gives a value
or a problem. -/
theorem exists_item (hp : Agrees b b' same p c c' fun _ => Past b b' c) (h : Twin b b' same c c')
    (hsep : c.token.isSeparator = false) (hend : c.token.endsSegment = false) :
    ∃ ds ds' o c₁ c₁', item p c = (⟨ds, .ok o⟩, c₁) ∧ item p c' = (⟨ds', .ok o⟩, c₁') ∧
      List.Forall₂ Diagnostic.Alike ds ds' ∧ (o = none → ds ≠ []) ∧ Twin b b' same c₁ c₁' ∧
      c₁.ahead.length < c.ahead.length := by
  have hlength : ∀ d : Cursor, d.skipItem.ahead.length ≤ d.ahead.length := by
    intro d
    simp [Cursor.skipItem]
  cases hp with
  | @ok ds ds' a c₁ c₁' left right alike suffix post =>
    have hatEnd : atItemEnd c₁ = atItemEnd c₁' :=
      post.twin.of_token (fun t => t.isSeparator || decide (t = .blockEnd)) rfl
    cases hc₁ : atItemEnd c₁ with
    | true =>
      refine ⟨ds, ds', some a, c₁, c₁', ?_, ?_, alike, by simp, post.twin.loosen, post.lt⟩
      · simp [item, left, hc₁]
      · simp [item, right, ← hatEnd, hc₁]
    | false =>
      have hrest : (c₁.unexpected "the end of the declaration").Alike
          (c₁'.unexpected "the end of the declaration") := alike_unexpected post.twin (by decide)
      refine ⟨ds ++ [_], ds' ++ [_], some a, c₁.skipItem, c₁'.skipItem, ?_, ?_,
        List.rel_append alike (.cons hrest .nil), by simp, post.twin.skipItem.loosen,
        Nat.lt_of_le_of_lt (hlength c₁) post.lt⟩
      · simp [item, left, hc₁]
      · simp [item, right, ← hatEnd, hc₁]
  | @error ds ds' d d' c₁ c₁' left right alike stops suffix twin =>
    refine ⟨ds ++ [d], ds' ++ [d'], none, c₁.skipItem, c₁'.skipItem, by simp [item, left],
      by simp [item, right], List.rel_append alike (.cons stops .nil), by simp, twin.skipItem, ?_⟩
    -- if nothing was read before the failure, the first token is skipped
    rcases Nat.lt_or_eq_of_le suffix.length_le with hlt | heq
    · exact Nat.lt_of_le_of_lt (hlength c₁) hlt
    · have hahead : c₁.ahead = c.ahead := suffix.eq_of_length heq
      obtain ⟨tok, toks, hshared, hc, -, hcurrent, -⟩ := h.exists_cons hend
      have htok : c.token = tok.token := by rw [Cursor.token, hcurrent]
      rw [htok] at hsep hend
      have hpos : 0 < Cursor.itemLength 0 0 c.ahead := by
        rw [hc, List.cons_append]
        refine Cursor.itemLength_pos hsep (fun ht => ?_) (hshared.proper tok List.mem_cons_self).ne_eof _
        simp [ht, Token.endsSegment] at hend
      have hne : c.ahead.length ≠ 0 := by simp [hc]
      simp only [Cursor.skipItem, Cursor.ahead_skip, hahead, List.length_drop]
      omega

/-! ## Items -/

/-- The separators before an item are skipped. -/
theorem skipSeparators_eq {w rest : List Lexeme} {tok : Lexeme} (hc : c.ahead = w ++ tok :: rest)
    (hw : ∀ x ∈ w, x.token.isSeparator = true) (htok : tok.token.isSeparator = false) :
    c.skipSeparators = c.skip w.length := by
  rw [Cursor.skipSeparators, hc, List.takeWhile_append_of_pos hw,
    List.takeWhile_cons_of_neg (by simp [htok]), List.append_nil]

/-- From `c` on items are read up to `c'`, with what they give and the problems in
them. -/
inductive Items (p : Parser α) : Cursor → List Diagnostic → List (Option α) → Cursor → Prop
  | nil {d} : Items p d [] [] d
  | cons {d d₁ d₂ ds ds' o os} (more : moreItems d = true)
      (first : item p d.skipSeparators = (⟨ds, .ok o⟩, d₁))
      (lt : d₁.ahead.length < d.ahead.length) (rest : Items p d₁ ds' os d₂) :
      Items p d (ds ++ ds') (o :: os) d₂

theorem Items.append {c₁ c₂ : Cursor} {ds ds' : List Diagnostic} {os os' : List (Option α)}
    (h : Items p c ds os c₁) (h' : Items p c₁ ds' os' c₂) : Items p c (ds ++ ds') (os ++ os') c₂ := by
  induction h with
  | nil => exact h'
  | cons more first lt _ ih =>
    rw [List.append_assoc]
    exact .cons more first lt (ih h')

theorem bind_ok {β : Type} {q : α → Parser β} {ds : List Diagnostic} {a : α} {c₁ : Cursor}
    (h : p c = (⟨ds, .ok a⟩, c₁)) :
    (p >>= q) c = (⟨ds ++ (q a c₁).1.diagnostics, (q a c₁).1.result⟩, (q a c₁).2) := by
  simp only [Bind.bind, andThen, h]

/-- Items up to a block end are all items of a block. -/
theorem Items.block {start : Lexeme} {toks w rest : List Lexeme} {stop : Lexeme} {c₁ : Cursor}
    {ds : List Diagnostic} {os : List (Option α)} (hc : c.ahead = start :: toks)
    (hstart : start.token = .blockStart) (h : Items p (c.skip 1) ds os c₁)
    (hw : ∀ x ∈ w, x.token.isSeparator = true) (hc₁ : c₁.ahead = w ++ stop :: rest)
    (hstop : stop.token = .blockEnd) :
    block p c = (⟨ds, .ok (os.filterMap id)⟩, c₁.skip (w.length + 1)) := by
  have hopen : Parser.expect .blockStart "to open a block" c = (⟨[], .ok ()⟩, c.skip 1) := by
    have htoken : c.token = .blockStart := by rw [Cursor.token, Cursor.token_eq_of_ahead hc, hstart]
    simp [Parser.expect, Cursor.expect, Cursor.eat?, Cursor.isAt, htoken, Cursor.advance, Pure.pure]
  have hskip : c₁.skipSeparators = c₁.skip w.length :=
    skipSeparators_eq hc₁ hw (by rw [hstop]; rfl)
  have hcurrent : (c₁.skip w.length).current = stop :=
    Cursor.token_eq_of_ahead (by rw [Cursor.ahead_skip, hc₁, List.drop_left])
  have htoken : (c₁.skip w.length).token = .blockEnd := by rw [Cursor.token, hcurrent, hstop]
  have hmore : moreItems c₁ = false := by simp [moreItems, hskip, Cursor.isAt, htoken]
  have hitems : whileAt moreItems (do move Cursor.skipSeparators; item p) (c.skip 1) =
      (⟨ds, .ok os⟩, c₁) := by
    generalize c.skip 1 = d at h
    induction h with
    | nil => exact whileAt_stop hmore
    | @cons d d₁ d₂ ds ds' o os more first lt _ ih =>
      have hround : (do move Cursor.skipSeparators; item p : Parser (Option α)) d =
          (⟨ds, .ok o⟩, d₁) := first
      rw [whileAt_round more hround lt, ih hc₁ hskip hcurrent htoken hmore]
      rfl
  have hclose : Parser.eat .blockEnd (c₁.skip w.length) = (⟨[], .ok true⟩, c₁.skip (w.length + 1)) := by
    have hadvance : (c₁.skip w.length).advance = c₁.skip (w.length + 1) := by
      rw [Cursor.advance_eq_skip (by rw [htoken]; simp), Cursor.skip_skip]
    simp [Parser.eat, Cursor.eat?, Cursor.isAt, htoken, hadvance, Pure.pure]
  have hmove : move Cursor.skipSeparators c₁ = (⟨[], .ok ()⟩, c₁.skip w.length) := by
    rw [← hskip]
    rfl
  rw [Parser.block, bind_ok hopen, bind_ok hitems, bind_ok hmove, bind_ok hclose]
  simp [Pure.pure]

/-! ## Segments -/

/-- Cursors that have `b` and `b'` ahead after separators. If `same` holds, these
are the same ones, and text has been read up to the same place. -/
structure Facing (b b' : List Lexeme) (same : Prop) (c c' : Cursor) : Prop where
  exists_ahead : ∃ w w', (∀ x ∈ w, x.token.isSeparator = true) ∧
    (∀ x ∈ w', x.token.isSeparator = true) ∧ c.ahead = w ++ b ∧ c'.ahead = w' ++ b' ∧ (same → w = w')
  lastEnd : same → c.lastEnd = c'.lastEnd

/-- Separators that are the same in both streams may be counted to those before. -/
theorem Facing.drop {q : List Lexeme} (h : Facing (q ++ b) (q ++ b') same c c')
    (hq : ∀ x ∈ q, x.token.isSeparator = true) : Facing b b' same c c' := by
  obtain ⟨w, w', hw, hw', hc, hc', hsame⟩ := h.exists_ahead
  refine ⟨⟨w ++ q, w' ++ q, ?_, ?_, by rw [hc, List.append_assoc], by rw [hc', List.append_assoc],
    fun hs => by rw [hsame hs]⟩, h.lastEnd⟩
  · exact List.forall_mem_append.2 ⟨hw, hq⟩
  · exact List.forall_mem_append.2 ⟨hw', hq⟩

/-- Before an item the separators are skipped, and the item is the same in both
streams. -/
theorem Facing.skipSeparators {tok : Lexeme} {toks : List Lexeme} (hb : Boundary b b')
    (hshared : Shared b b' (tok :: toks)) (htok : tok.token.isSeparator = false)
    (h : Facing (tok :: toks ++ b) (tok :: toks ++ b') same c c') :
    Twin b b' same c.skipSeparators c'.skipSeparators ∧
      c.skipSeparators.ahead = tok :: toks ++ b ∧ c'.skipSeparators.ahead = tok :: toks ++ b' ∧
      c.skipSeparators.ahead.length ≤ c.ahead.length ∧
      c'.skipSeparators.ahead.length ≤ c'.ahead.length := by
  obtain ⟨w, w', hw, hw', hc, hc', hsame⟩ := h.exists_ahead
  have hskip := skipSeparators_eq hc hw htok
  have hskip' := skipSeparators_eq hc' hw' htok
  have hahead : c.skipSeparators.ahead = tok :: toks ++ b := by
    rw [hskip, Cursor.ahead_skip, hc, List.drop_left]
  have hahead' : c'.skipSeparators.ahead = tok :: toks ++ b' := by
    rw [hskip', Cursor.ahead_skip, hc', List.drop_left]
  refine ⟨⟨hb, ⟨_, hshared, hahead, hahead'⟩, fun hs => ?_⟩, hahead, hahead', ?_, ?_⟩
  · obtain rfl := hsame hs
    rw [hskip, hskip', Cursor.lastEnd_skip, Cursor.lastEnd_skip, hc, hc', List.take_left,
      List.take_left, h.lastEnd hs]
  · rw [hahead, hc]
    simp
  · rw [hahead', hc']
    simp

/-- Only semicolons may come before the first item of a segment. -/
theorem exists_separators {toks : List Lexeme} (h : blocksClose false 0 toks = true) :
    ∃ q rest, toks = q ++ rest ∧ (∀ x ∈ q, x.token = .semicolon) ∧ blocksClose false 0 rest = true ∧
      (rest = [] ∨ ∃ tok others, rest = tok :: others ∧ tok.token.isSeparator = false) := by
  induction toks with
  | nil => exact ⟨[], [], rfl, by simp, rfl, .inl rfl⟩
  | cons tok toks ih =>
    by_cases hsemicolon : tok.token = .semicolon
    · rw [blocksClose_plain (by rw [hsemicolon]; rfl)] at h
      obtain ⟨q, rest, rfl, hq, hrest⟩ := ih h
      exact ⟨tok :: q, rest, rfl, List.forall_mem_cons.2 ⟨hsemicolon, hq⟩, hrest⟩
    · refine ⟨[], tok :: toks, rfl, by simp, h, .inr ⟨tok, toks, rfl, ?_⟩⟩
      have hsep : tok.token ≠ .blockSep := by
        intro hsep
        simp [blocksClose_sep hsep] at h
      exact Token.isSeparator_eq_false.2 ⟨hsep, hsemicolon⟩

/-- The items of a segment are the same, whatever is behind it. A segment that
holds more than semicolons gives a value or a problem. -/
theorem exists_items {toks : List Lexeme} (hb : Boundary b b')
    (hp : ∀ c c', Twin b b' same c c' → c.token.endsSegment = false →
      Agrees b b' same p c c' fun _ => Past b b' c)
    (hshared : Shared b b' toks) (h : Facing (toks ++ b) (toks ++ b') same c c') :
    ∃ ds ds' os c₁ c₁', Items p c ds os c₁ ∧ Items p c' ds' os c₁' ∧
      List.Forall₂ Diagnostic.Alike ds ds' ∧ Facing b b' same c₁ c₁' ∧
      ((∃ tok ∈ toks, tok.token ≠ .semicolon) → os.filterMap id ≠ [] ∨ ds ≠ []) := by
  induction hn : toks.length using Nat.strongRecOn generalizing toks c c' with
  | _ n ih =>
    subst hn
    obtain ⟨q, rest, rfl, hq, hcloses, hrest⟩ := exists_separators hshared.closes
    have hseps : ∀ x ∈ q, x.token.isSeparator = true := fun x hx => by rw [hq x hx]; rfl
    rw [List.append_assoc, List.append_assoc] at h
    have hfacing := h.drop hseps
    rcases hrest with rfl | ⟨tok, others, rfl, htok⟩
    · refine ⟨[], [], [], c, c', .nil, .nil, .nil, hfacing, ?_⟩
      rintro ⟨tok, hmem, hne⟩
      exact absurd (hq tok (by simpa using hmem)) hne
    · have hitem : Shared b b' (tok :: others) := hshared.suffix (List.suffix_append q _) hcloses
      obtain ⟨htwin, hahead, hahead', hle, hle'⟩ := hfacing.skipSeparators hb hitem htok
      have hnotEnd : tok.token ≠ .blockEnd := by
        intro ht
        simp [blocksClose_end ht] at hcloses
      have htoken : ∀ {d : Cursor} {rest : List Lexeme}, d.ahead = tok :: rest → d.token = tok.token :=
        fun hd => by rw [Cursor.token, Cursor.token_eq_of_ahead hd]
      have hmore : ∀ {d : Cursor} {rest : List Lexeme}, d.skipSeparators.ahead = tok :: rest →
          moreItems d = true := by
        intro d rest hd
        simp [moreItems, Cursor.isAt, htoken hd, hnotEnd, (hitem.proper tok List.mem_cons_self).ne_eof]
      have hends := Token.endsSegment_eq_false htok hnotEnd
      obtain ⟨ds, ds', o, c₁, c₁', hfirst, hfirst', halike, hnone, htwin₁, hlt⟩ :=
        exists_item (hp _ _ htwin (by rw [htoken hahead, hends])) htwin (by rw [htoken hahead, htok])
          (by rw [htoken hahead, hends])
      have hlt' := htwin.length_lt htwin₁ hlt
      obtain ⟨toks₁, hshared₁, hc₁, hc₁'⟩ := htwin₁.exists_ahead
      have hfacing₁ : Facing (toks₁ ++ b) (toks₁ ++ b') same c₁ c₁' :=
        ⟨⟨[], [], by simp, by simp, hc₁, hc₁', fun _ => rfl⟩, htwin₁.lastEnd⟩
      have hshorter : toks₁.length < (q ++ tok :: others).length := by
        rw [hc₁, hahead] at hlt
        simp only [List.length_append] at hlt ⊢
        omega
      obtain ⟨es, es', os, c₂, c₂', hitems, hitems', halike', hfacing₂, -⟩ :=
        ih _ hshorter hshared₁ hfacing₁ rfl
      refine ⟨ds ++ es, ds' ++ es', o :: os, c₂, c₂',
        .cons (hmore hahead) hfirst (Nat.lt_of_lt_of_le hlt hle) hitems,
        .cons (hmore hahead') hfirst' (Nat.lt_of_lt_of_le hlt' hle') hitems',
        List.rel_append halike halike', hfacing₂, fun _ => ?_⟩
      cases o with
      | none => exact .inr (by simp [hnone rfl])
      | some a => exact .inl (by simp)

/-! ## Whole blocks -/

/-- `p` reads the items of a segment in the same way, whatever is behind it. -/
def ReadsItems (p : Parser α) : Prop :=
  ∀ b b' same c c', Twin b b' same c c' → c.token.endsSegment = false →
    Agrees b b' same p c c' fun _ => Past b b' c

/-- The items of a block are read up to its end. -/
theorem exists_allItems (hp : ReadsItems p) {body after after' : List Lexeme} {stop : Lexeme}
    (hcloses : blocksClose true 0 body = true) (hproper : ∀ tok ∈ body, tok.IsProper)
    (hscans : ∀ toks, toks <:+ body → ScansAlike 0 toks (stop :: after) (stop :: after'))
    (hstop : stop.token = .blockEnd)
    (h : Facing (body ++ stop :: after) (body ++ stop :: after') same c c') :
    ∃ ds ds' os c₁ c₁', Items p c ds os c₁ ∧ Items p c' ds' os c₁' ∧
      List.Forall₂ Diagnostic.Alike ds ds' ∧ Facing (stop :: after) (stop :: after') same c₁ c₁' := by
  induction hn : body.length using Nat.strongRecOn generalizing body c c' with
  | _ n ih =>
    subst hn
    obtain ⟨segment, rest, rfl, hsegment, hrest⟩ := exists_segment hcloses
    -- a scan in the segment goes on in what is left of the block
    have hshared : Shared (rest ++ stop :: after) (rest ++ stop :: after') segment := by
      refine ⟨hsegment, fun tok htok => hproper tok (List.mem_append_left _ htok), ?_⟩
      rintro toks ⟨pre, rfl⟩
      exact (hscans (toks ++ rest) ⟨pre, by simp⟩).behind
    rw [List.append_assoc, List.append_assoc] at h
    rcases hrest with rfl | ⟨sep, others, rfl, hsep, hothers⟩
    · have hb : Boundary (stop :: after) (stop :: after') :=
        ⟨stop, after, stop, after', rfl, rfl, by rw [hstop]; rfl, by rw [hstop]; rfl, rfl⟩
      obtain ⟨ds, ds', os, c₁, c₁', hitems, hitems', halike, hfacing, -⟩ :=
        exists_items hb (hp _ _ same) hshared h
      exact ⟨ds, ds', os, c₁, c₁', hitems, hitems', halike, hfacing⟩
    · have hb : Boundary (sep :: others ++ stop :: after) (sep :: others ++ stop :: after') :=
        ⟨sep, _, sep, _, rfl, rfl, by rw [hsep]; rfl, by rw [hsep]; rfl, rfl⟩
      obtain ⟨ds, ds', os, c₁, c₁', hitems, hitems', halike, hfacing, -⟩ :=
        exists_items hb (hp _ _ same) hshared h
      have hnext : Facing (others ++ stop :: after) (others ++ stop :: after') same c₁ c₁' := by
        refine Facing.drop (q := [sep]) hfacing ?_
        simp [hsep, Token.isSeparator]
      obtain ⟨es, es', os', c₂, c₂', hrest, hrest', halike', hfacing'⟩ :=
        ih others.length (by simp; omega) hothers
          (fun tok htok => hproper tok (by simp [htok]))
          (fun toks htoks => hscans toks (htoks.trans ⟨segment ++ [sep], by simp⟩)) hnext rfl
      exact ⟨ds ++ es, ds' ++ es', os ++ os', c₂, c₂', hitems.append hrest, hitems'.append hrest',
        List.rel_append halike halike', hfacing'⟩

/-- A block is read to its end in both streams, and gives the same. -/
theorem exists_block (hp : ReadsItems p) {body after after' : List Lexeme} {start stop : Lexeme}
    (hstart : start.token = .blockStart) (hcloses : blocksClose true 0 body = true)
    (hproper : ∀ tok ∈ body, tok.IsProper)
    (hscans : ∀ toks, toks <:+ body → ScansAlike 0 toks (stop :: after) (stop :: after'))
    (hstop : stop.token = .blockEnd) (hc : c.ahead = start :: (body ++ stop :: after))
    (hc' : c'.ahead = start :: (body ++ stop :: after')) (hlastEnd : same → c.lastEnd = c'.lastEnd) :
    ∃ ds ds' as c₁ c₁', block p c = (⟨ds, .ok as⟩, c₁) ∧ block p c' = (⟨ds', .ok as⟩, c₁') ∧
      List.Forall₂ Diagnostic.Alike ds ds' ∧ c₁.ahead = after ∧ c₁'.ahead = after' ∧
      (same → c₁.lastEnd = c₁'.lastEnd) := by
  have hopened : Facing (body ++ stop :: after) (body ++ stop :: after') same (c.skip 1) (c'.skip 1) := by
    refine ⟨⟨[], [], by simp, by simp, by simp [hc], by simp [hc'], fun _ => rfl⟩, fun hs => ?_⟩
    simp [hc, hc', hlastEnd hs]
  obtain ⟨ds, ds', os, c₁, c₁', hitems, hitems', halike, hfacing⟩ :=
    exists_allItems hp hcloses hproper hscans hstop hopened
  obtain ⟨w, w', hw, hw', hc₁, hc₁', hsame⟩ := hfacing.exists_ahead
  refine ⟨ds, ds', os.filterMap id, c₁.skip (w.length + 1), c₁'.skip (w'.length + 1),
    hitems.block hc hstart hw hc₁ hstop, hitems'.block hc' hstart hw' hc₁' hstop, halike, ?_, ?_, ?_⟩
  · simp [hc₁]
  · simp [hc₁']
  · intro hs
    obtain rfl := hsame hs
    simp [hc₁, hc₁', hfacing.lastEnd hs, List.take_append]

/-- A block inside an item is read in the same way, whatever is behind the item. -/
theorem Steady.block (hp : ReadsItems p) (h : Twin b b' True c c') : Steady b b' (block p) c c' := by
  by_cases hstart : c.token = .blockStart
  · obtain ⟨start, toks, hshared, hc, hc', hcurrent, -⟩ := h.exists_cons (by rw [hstart]; rfl)
    have hstart : start.token = .blockStart := by rw [← hcurrent]; exact hstart
    have hcloses := hshared.closes
    rw [blocksClose_start hstart] at hcloses
    obtain ⟨body, stop, rest, rfl, hstop, hbody, hrest⟩ : ∃ body stop rest,
        toks = body ++ stop :: rest ∧ stop.token = .blockEnd ∧ blocksClose true 0 body = true ∧
        blocksClose false 0 rest = true := exists_blockEnd (k := 0) (by simpa using hcloses)
    have hscans : ∀ toks, toks <:+ body →
        ScansAlike 0 toks (stop :: (rest ++ b)) (stop :: (rest ++ b')) := by
      rintro toks ⟨pre, rfl⟩
      exact (hshared.scans (toks ++ stop :: rest) ⟨start :: pre, by simp⟩).behind
    obtain ⟨ds, ds', as, c₁, c₁', hblock, hblock', halike, hc₁, hc₁', hlastEnd⟩ :=
      exists_block hp hstart hbody (fun tok htok => hshared.proper tok (by simp [htok])) hscans hstop
        (by simpa using hc) (by simpa using hc') h.lastEnd
    refine .ok hblock hblock' halike ?_ ⟨h.boundary, ⟨rest, ?_, hc₁, hc₁'⟩, hlastEnd⟩
    · rw [hc₁, hc]
      exact ⟨start :: (body ++ [stop]), by simp⟩
    · exact hshared.suffix ⟨start :: (body ++ [stop]), by simp⟩ hrest
  · have hstart' : c'.token ≠ .blockStart := by
      have := h.of_token (fun t => decide (t = .blockStart)) rfl
      simpa [hstart] using this
    have hfail : Agrees b b' True (Parser.expect .blockStart "to open a block") c c'
        fun _ _ _ => False := .expectNone h (decide_eq_false hstart) (decide_eq_false hstart')
    exact hfail.bind fun _ _ _ h => h.elim

end Parser

end Offside
