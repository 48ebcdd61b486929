-- SUMMARY: Reading goes on and ends: one rule for each combinator, with plain repetitions and with checked ones.
import Offside.Proofs.Parser.Blocks
import Offside.Proofs.Parser.Partial
import Offside.Proofs.Parser.Returns

/-! # Parsers that go on

Reading never goes back, so a cursor `Leads` to each one that is reached from it,
and is `Before` it if a token has been read. `Ends` says of a parser with plain
repetitions that it ends where it is started, as the one with checked repetitions
does, and what holds of the value then. A plain repetition ends because each of its
rounds reads something (`Ends.whileFrom`), and would not if one read nothing
(`PartialParser.whileAt_eq_none`). A block needs no such thing of its items: what an
item leaves is skipped (`Ends.item`). -/

namespace Offside

/-- Outside all blocks and brackets an item ends before a separator, a block end or
the end of the file. -/
theorem Token.endsItem_zero {t : Token} :
    t.endsItem 0 0 = false ↔ t.isSeparator = false ∧ t ≠ .blockEnd ∧ t ≠ .eof := by
  cases t <;> simp [endsItem, isSeparator]

/-! ## Cursors -/

/-- Reading on from `c` leads to `c'`: some of the tokens ahead are read, or none. -/
structure Cursor.Leads (c c' : Cursor) : Prop where
  suffix : c'.ahead <:+ c.ahead
  eof : c'.eof = c.eof

/-- Reading on from `c` leads to `c'`, over at least one token. -/
structure Cursor.Before (c c' : Cursor) : Prop extends c.Leads c' where
  lt : c'.ahead.length < c.ahead.length

namespace Cursor

variable {c c₁ c₂ : Cursor}

theorem eof_ofLexemes (toks : List Lexeme) : (ofLexemes toks).eof.token = .eof := by
  rw [ofLexemes]
  split
  · rfl
  · split
    · assumption
    · rfl

theorem Leads.refl (c : Cursor) : c.Leads c := ⟨List.suffix_rfl, rfl⟩

theorem Leads.trans (h : c.Leads c₁) (h' : c₁.Leads c₂) : c.Leads c₂ :=
  ⟨h'.suffix.trans h.suffix, h'.eof.trans h.eof⟩

theorem Leads.ended (h : c.Leads c₁) (hc : c.eof.token = .eof) : c₁.eof.token = .eof := by
  rw [h.eof, hc]

theorem Before.trans (h : c.Before c₁) (h' : c₁.Leads c₂) : c.Before c₂ :=
  ⟨h.toLeads.trans h', Nat.lt_of_le_of_lt h'.suffix.length_le h.lt⟩

theorem Leads.before (h : c.Leads c₁) (h' : c₁.Before c₂) : c.Before c₂ :=
  ⟨h.trans h'.toLeads, Nat.lt_of_lt_of_le h'.lt h.suffix.length_le⟩

/-- Where reading has led, something has been read or the token is the same. -/
theorem Leads.before_or (h : c.Leads c₁) : c.Before c₁ ∨ c₁.token = c.token := by
  rcases Nat.lt_or_eq_of_le h.suffix.length_le with hlt | heq
  · exact .inl ⟨h, hlt⟩
  · have hahead := h.suffix.eq_of_length heq
    exact .inr (by simp only [token, current, peekAt, hahead, h.eof])

theorem leads_skip (c : Cursor) (n : Nat) : c.Leads (c.skip n) := ⟨List.drop_suffix n c.ahead, rfl⟩

theorem leads_advance (c : Cursor) : c.Leads c.advance := by
  by_cases h : c.token = .eof
  · rw [advance, isAt, if_pos (decide_eq_true h)]
    exact ⟨List.suffix_rfl, rfl⟩
  · rw [advance_eq_skip h]
    exact leads_skip c 1

/-- A token that is no end of file can be read. -/
theorem before_advance (hc : c.eof.token = .eof) (h : c.token ≠ .eof) : c.Before c.advance := by
  refine ⟨leads_advance c, ?_⟩
  rw [advance_eq_skip h, ahead_skip, ahead_eq_cons hc h]
  simp

theorem leads_skipSeparators (c : Cursor) : c.Leads c.skipSeparators := leads_skip c _

theorem leads_skipItem (c : Cursor) : c.Leads c.skipItem := leads_skip c _

/-- Skipping an item takes the first token, unless the item ends before it. -/
theorem before_skipItem (hc : c.eof.token = .eof) (h : c.token.endsItem 0 0 = false) :
    c.Before c.skipItem := by
  obtain ⟨hsep, hend, heof⟩ := Token.endsItem_zero.1 h
  have hahead := ahead_eq_cons hc heof
  have hpos : 0 < itemLength 0 0 c.ahead := by
    rw [hahead]
    exact itemLength_pos hsep hend heof _
  have hne : 0 < c.ahead.length := by
    rw [hahead]
    simp
  refine ⟨leads_skipItem c, ?_⟩
  rw [skipItem, ahead_skip, List.length_drop]
  omega

end Cursor

namespace Parser

variable {α β : Type}

/-- Started at `c`, the parser with plain repetitions `w` ends as `p` does, reading
leads on from `c`, and `Q` holds of a value and where it is given. -/
structure Ends (w : PartialParser α) (p : Parser α) (c : Cursor) (Q : α → Cursor → Prop) :
    Prop where
  run : w c = .some (p c)
  leads : c.Leads (p c).2
  value : ∀ a, (p c).1.result = .ok a → Q a (p c).2

namespace Ends

variable {w : PartialParser α} {p : Parser α} {c : Cursor} {Q R : α → Cursor → Prop} {t : Token}
  {expected context : String}

/-! ## Sequencing -/

theorem mono (h : Ends w p c Q) (hQ : ∀ a c', c.Leads c' → Q a c' → R a c') : Ends w p c R :=
  ⟨h.run, h.leads, fun a ha => hQ a _ h.leads (h.value a ha)⟩

/-- What is known of a parser step by step holds of it as a whole. -/
theorem whole (h : Ends w p c Q) : Ends (liftM p) p c Q := ⟨rfl, h.leads, h.value⟩

theorem loose (h : Ends w p c Q) : Ends w p c fun _ _ => True := h.mono fun _ _ _ _ => trivial

theorem pure {a : α} (h : Q a c) : Ends (pure a) (pure a) c Q := by
  refine ⟨rfl, .refl c, ?_⟩
  rintro _ ⟨⟩
  exact h

theorem bind {next : α → PartialParser β} {q : α → Parser β} {S : β → Cursor → Prop}
    (h : Ends w p c Q) (hnext : ∀ a c₁, c.Leads c₁ → Q a c₁ → Ends (next a) (q a) c₁ S) :
    Ends (w >>= next) (p >>= q) c S := by
  have hrun : (w >>= next) c = w.andThen next c := rfl
  have hcheck : (p >>= q) c = p.andThen q c := rfl
  obtain ⟨hw, hleads, hvalue⟩ := h
  cases hp : p c with
  | mk r c₁ =>
    obtain ⟨ds, result⟩ := r
    rw [hp] at hw hleads hvalue
    rw [PartialParser.andThen, hw] at hrun
    rw [andThen, hp] at hcheck
    cases result with
    | error d =>
      refine ⟨by rw [hrun, hcheck]; simp, by rw [hcheck]; exact hleads, ?_⟩
      rw [hcheck]
      rintro _ ⟨⟩
    | ok a =>
      obtain ⟨hw', hleads', hvalue'⟩ := hnext a c₁ hleads (hvalue a rfl)
      refine ⟨?_, by rw [hcheck]; exact hleads.trans hleads', by rw [hcheck]; exact hvalue'⟩
      rw [hrun, hcheck]
      simp [hw']

/-- One after the other. -/
theorem seq {next : α → PartialParser β} {q : α → Parser β} (h : Ends w p c Q)
    (hc : c.eof.token = .eof)
    (hnext : ∀ a c₁, c₁.eof.token = .eof → Ends (next a) (q a) c₁ fun _ _ => True) :
    Ends (w >>= next) (p >>= q) c fun _ _ => True :=
  h.bind fun a c₁ hleads _ => hnext a c₁ (hleads.ended hc)

/-- The first one reads something. -/
theorem first {next : α → PartialParser β} {q : α → Parser β} (h : Ends w p c fun _ => c.Before)
    (hc : c.eof.token = .eof)
    (hnext : ∀ a c₁, c₁.eof.token = .eof → Ends (next a) (q a) c₁ fun _ _ => True) :
    Ends (w >>= next) (p >>= q) c fun _ => c.Before :=
  h.bind fun a c₁ hleads hbefore => (hnext a c₁ (hleads.ended hc)).mono fun _ _ hleads' _ =>
    hbefore.trans hleads'

/-- The second one reads something. -/
theorem later {next : α → PartialParser β} {q : α → Parser β} (h : Ends w p c Q)
    (hc : c.eof.token = .eof)
    (hnext : ∀ a c₁, c₁.eof.token = .eof → Ends (next a) (q a) c₁ fun _ => c₁.Before) :
    Ends (w >>= next) (p >>= q) c fun _ => c.Before :=
  h.bind fun a c₁ hleads _ => (hnext a c₁ (hleads.ended hc)).mono fun _ _ _ hbefore =>
    hleads.before hbefore

theorem map {f : α → β} {S : β → Cursor → Prop} (h : Ends w p c fun a => S (f a)) :
    Ends (f <$> w) (f <$> p) c S :=
  h.bind fun _ _ _ h => .pure h

/-! ## Looking, failing and moving -/

/-- What has no repetition ends. -/
theorem lift (hleads : c.Leads (p c).2) (hvalue : ∀ a, (p c).1.result = .ok a → Q a (p c).2) :
    Ends (liftM p) p c Q :=
  ⟨rfl, hleads, hvalue⟩

theorem of_ok {a : α} {c' : Cursor} (h : p c = (Pure.pure a, c')) (hleads : c.Leads c')
    (hvalue : Q a c') : Ends (liftM p) p c Q := by
  refine .lift (by rwa [h]) ?_
  rw [h]
  rintro _ ⟨⟩
  exact hvalue

theorem of_fail {d : Diagnostic} (h : p c = (.fail d, c)) : Ends (liftM p) p c Q := by
  refine .lift (by rw [h]; exact .refl c) ?_
  rw [h]
  exact nofun

theorem look {f : Cursor → β} {next : β → PartialParser α} {q : β → Parser α}
    (h : Ends (next (f c)) (q (f c)) c Q) :
    Ends (liftM (Parser.look f) >>= next) (Parser.look f >>= q) c Q := by
  have hlook : Ends (liftM (Parser.look f)) (Parser.look f) c fun b c₁ => b = f c ∧ c₁ = c :=
    of_ok rfl (.refl c) ⟨rfl, rfl⟩
  refine hlook.bind ?_
  rintro _ _ - ⟨rfl, rfl⟩
  exact h

/-- Branching on a test of the cursor. -/
theorem lookIf {test : Cursor → Bool} {w' : PartialParser α} {p' : Parser α}
    (hthen : test c = true → Ends w p c Q) (helse : test c = false → Ends w' p' c Q) :
    Ends (do if ← (Parser.look test : Parser Bool) then w else w')
      (do if ← Parser.look test then p else p') c Q := by
  refine look ?_
  cases h : test c with
  | true => simpa using hthen h
  | false => simpa using helse h

theorem failHere {problem : Problem} :
    Ends (liftM (Parser.failHere problem)) (Parser.failHere problem) c Q :=
  of_fail rfl

theorem unexpected : Ends (liftM (Parser.unexpected expected)) (Parser.unexpected expected) c Q :=
  of_fail rfl

theorem record {ds : List Diagnostic} :
    Ends (liftM (Parser.record ds)) (Parser.record ds) c fun _ _ => True :=
  .lift (.refl c) fun _ _ => trivial

/-- The span of what has been read, and a value made with it. -/
theorem spanned {n : Nat} {f : Span → α} :
    Ends (liftM (Parser.spanFrom n) >>= fun span => Pure.pure (f span))
      (Parser.spanFrom n >>= fun span => Pure.pure (f span)) c fun _ _ => True :=
  look (.pure trivial)

theorem advance : Ends (liftM Parser.advance) Parser.advance c fun _ _ => True :=
  of_ok rfl (Cursor.leads_advance c) trivial

theorem keyword (hc : c.eof.token = .eof) (h : c.token ≠ .eof) :
    Ends (liftM Parser.advance) Parser.advance c fun _ => c.Before :=
  of_ok rfl (Cursor.leads_advance c) (Cursor.before_advance hc h)

theorem eat : Ends (liftM (Parser.eat t)) (Parser.eat t) c fun _ _ => True := by
  refine .lift ?_ fun _ _ => trivial
  by_cases h : c.isAt t = true
  · simpa [Parser.eat, Cursor.eat?, h] using Cursor.leads_advance c
  · simpa [Parser.eat, Cursor.eat?, h] using Cursor.Leads.refl c

theorem expect (hc : c.eof.token = .eof) (ht : t ≠ .eof) :
    Ends (liftM (Parser.expect t context)) (Parser.expect t context) c fun _ => c.Before := by
  by_cases h : c.isAt t = true
  · have hbefore : c.Before c.advance := Cursor.before_advance hc (by rwa [token_of_isAt h])
    refine of_ok (a := ()) ?_ hbefore.toLeads hbefore
    simp [Parser.expect, Cursor.expect, Cursor.eat?, h]
  · refine of_fail (d := c.unexpected s!"`{t.text}` {context}") ?_
    simp [Parser.expect, Cursor.expect, Cursor.eat?, h]

theorem attempt (h : Ends w p c Q) : Ends w.attempt (Parser.attempt p) c fun _ _ => True := by
  refine ⟨?_, h.leads, fun _ _ => trivial⟩
  simp [PartialParser.attempt, h.run, Parser.attempt]

theorem settle (h : Ends w p c Q) : Ends w.settle (Parser.settle p) c fun _ _ => True := by
  refine ⟨?_, h.leads, fun _ _ => trivial⟩
  simp [PartialParser.settle, h.run, Parser.settle]

theorem optional (hc : c.eof.token = .eof)
    (h : ∀ c₁, c₁.eof.token = .eof → Ends w p c₁ fun _ => c₁.Before) :
    Ends (w.optional t) (Parser.optional t p) c fun _ _ => True := by
  refine eat.seq hc fun found c₁ hc₁ => ?_
  cases found with
  | true => exact .map (h c₁ hc₁).loose
  | false => exact .pure trivial

/-! ## Repetition -/

section

variable {next : Option α → Cursor → Bool} (last : Option α) (hc : c.eof.token = .eof)
  (h : ∀ last c₁, c₁.eof.token = .eof → next last c₁ = true → Ends w p c₁ fun _ => c₁.Before)

include hc h

/-- A repetition is over, its round fails, or the round reads something and others
may follow. -/
theorem whileFrom_cases :
    (next last c = false ∧ Parser.whileFrom next p last c = (⟨[], .ok []⟩, c)) ∨
    (∃ ds d c₁, next last c = true ∧ w c = .some (⟨ds, .error d⟩, c₁) ∧ c.Leads c₁ ∧
      Parser.whileFrom next p last c = (⟨ds, .error d⟩, c₁)) ∨
    (∃ ds a c₁, next last c = true ∧ w c = .some (⟨ds, .ok a⟩, c₁) ∧ c.Before c₁ ∧
      Parser.whileFrom next p last c =
        (⟨ds ++ (Parser.whileFrom next p (some a) c₁).1.diagnostics,
          (Parser.whileFrom next p (some a) c₁).1.result.map (a :: ·)⟩,
          (Parser.whileFrom next p (some a) c₁).2)) := by
  cases hnext : next last c with
  | false => exact .inl ⟨rfl, whileFrom_stop hnext⟩
  | true =>
    obtain ⟨hw, hleads, hvalue⟩ := h last c hc hnext
    cases hp : p c with
    | mk r c₁ =>
      obtain ⟨ds, result⟩ := r
      rw [hp] at hw hleads hvalue
      cases result with
      | error d => exact .inr (.inl ⟨ds, d, c₁, rfl, hw, hleads, whileFrom_error hnext hp⟩)
      | ok a =>
        have hbefore : c.Before c₁ := hvalue a rfl
        exact .inr (.inr ⟨ds, a, c₁, rfl, hw, hbefore, whileFrom_round hnext hp hbefore.lt⟩)

/-- Rounds that read something end. What they give comes behind what `ds` and `as`
say of earlier ones. -/
theorem rounds_apply (ds : List Diagnostic) (as : List α) :
    (PartialParser.again next w).fix ⟨ds, as, last, c⟩ =
      .some (⟨ds ++ (Parser.whileFrom next p last c).1.diagnostics,
        (Parser.whileFrom next p last c).1.result.map (as ++ ·)⟩,
        (Parser.whileFrom next p last c).2) := by
  induction hn : c.ahead.length using Nat.strongRecOn generalizing last c ds as with
  | _ n ih =>
    subst hn
    obtain ⟨hnext, hstop⟩ | ⟨ds', d, c₁, hnext, hw, -, hfail⟩ |
      ⟨ds', a, c₁, hnext, hw, hbefore, hround⟩ := whileFrom_cases last hc h
    · refine Part.eq_some_iff.2 (PFun.fix_stop ?_)
      simp [PartialParser.again, hnext, hstop, Except.map]
    · refine Part.eq_some_iff.2 (PFun.fix_stop ?_)
      simp [PartialParser.again, hnext, hw, hfail, Except.map]
    · -- fewer tokens are ahead of the rounds behind this one
      have hagain : .inr ⟨ds ++ ds', as ++ [a], some a, c₁⟩ ∈
          PartialParser.again next w ⟨ds, as, last, c⟩ := by
        simp [PartialParser.again, hnext, hw]
      rw [PFun.fix_fwd_eq hagain, ih _ hbefore.lt _ (hbefore.ended hc) _ _ rfl, hround]
      cases (Parser.whileFrom next p (some a) c₁).1.result <;> simp [Except.map]

theorem leads_whileFrom : c.Leads (Parser.whileFrom next p last c).2 := by
  induction hn : c.ahead.length using Nat.strongRecOn generalizing last c with
  | _ n ih =>
    subst hn
    obtain ⟨-, hstop⟩ | ⟨ds, d, c₁, -, -, hleads, hfail⟩ | ⟨ds, a, c₁, -, -, hbefore, hround⟩ :=
      whileFrom_cases last hc h
    · rw [hstop]
      exact .refl c
    · rwa [hfail]
    · rw [hround]
      exact hbefore.toLeads.trans (ih _ hbefore.lt _ (hbefore.ended hc) rfl)

/-- A repetition ends if each of its rounds that gives a value reads something, and
then it has read something itself unless it gives nothing. -/
theorem whileFrom :
    Ends (PartialParser.whileFrom next w last) (Parser.whileFrom next p last) c fun as c' =>
      as ≠ [] → c.Before c' := by
  refine ⟨?_, leads_whileFrom last hc h, fun as has hne => ?_⟩
  · rw [PartialParser.whileFrom, rounds_apply last hc h]
    cases hrounds : Parser.whileFrom next p last c with
    | mk r c' =>
      obtain ⟨ds, result⟩ := r
      cases result <;> simp [Except.map]
  · obtain ⟨-, hstop⟩ | ⟨ds, d, c₁, -, -, -, hfail⟩ | ⟨ds, a, c₁, -, -, hbefore, hround⟩ :=
      whileFrom_cases last hc h
    · rw [hstop] at has
      exact absurd (Except.ok.inj has).symm hne
    · simp [hfail] at has
    · rw [hround]
      exact hbefore.trans (leads_whileFrom (some a) (hbefore.ended hc) h)

end

theorem whileAt {more : Cursor → Bool} (hc : c.eof.token = .eof)
    (h : ∀ c₁, c₁.eof.token = .eof → more c₁ = true → Ends w p c₁ fun _ => c₁.Before) :
    Ends (PartialParser.whileAt more w) (Parser.whileAt more p) c fun as c' =>
      as ≠ [] → c.Before c' :=
  whileFrom none hc fun _ => h

end Ends

end Parser

namespace PartialParser

variable {α : Type} {c : Cursor}

/-- A repetition does not end where a round gives a value but reads nothing. -/
theorem whileAt_eq_none {more : Cursor → Bool} {round : PartialParser α} {ds : List Diagnostic}
    {a : α} (hmore : more c = true) (hround : round c = .some (⟨ds, .ok a⟩, c)) :
    whileAt more round c = .none := by
  refine Part.eq_none_iff.2 fun result hresult => ?_
  -- no round leaves `c`, so none of them is the last one
  have hstays : ∀ s : Rounds α, result ∈ (again (fun _ => more) round).fix s → s.cursor ≠ c := by
    intro s hs
    refine PFun.fixInduction hs fun s _ ih hcursor => ?_
    have hagain : .inr ⟨s.diagnostics ++ ds, s.values ++ [a], some a, c⟩ ∈
        again (fun _ => more) round s := by
      simp [again, hcursor, hmore, hround]
    exact ih _ hagain rfl
  exact hstays _ hresult rfl

end PartialParser

/-! ## Skipping -/

namespace Cursor

variable {c c₁ : Cursor}

theorem skipSeparators_of_false (h : c.token.isSeparator = false) : c.skipSeparators = c := by
  cases hahead : c.ahead with
  | nil => simp [skipSeparators, hahead]
  | cons tok toks =>
    rw [token, token_eq_of_ahead hahead] at h
    simp [skipSeparators, hahead, h]

theorem skipSeparators_of_true (hc : c.eof.token = .eof) (h : c.token.isSeparator = true) :
    c.Before c.advance ∧ c.skipSeparators = c.advance.skipSeparators := by
  have heof : c.token ≠ .eof := fun heof => by simp [heof, Token.isSeparator] at h
  have hlength : (c.ahead.takeWhile (·.token.isSeparator)).length =
      1 + ((c.ahead.drop 1).takeWhile (·.token.isSeparator)).length := by
    rw [token] at h
    conv_lhs => rw [ahead_eq_cons hc heof]
    simp [h, Nat.add_comm]
  refine ⟨before_advance hc heof, ?_⟩
  rw [advance_eq_skip heof, skipSeparators, skipSeparators, skip_skip, ahead_skip, hlength]

/-- Behind separators there is none. -/
theorem isSeparator_skipSeparators (hc : c.eof.token = .eof) :
    c.skipSeparators.token.isSeparator = false := by
  induction hn : c.ahead.length using Nat.strongRecOn generalizing c with
  | _ n ih =>
    subst hn
    cases hsep : c.token.isSeparator with
    | false => rwa [skipSeparators_of_false hsep]
    | true =>
      obtain ⟨hbefore, hskip⟩ := skipSeparators_of_true hc hsep
      rw [hskip]
      exact ih _ hbefore.lt (hbefore.ended hc) rfl

theorem itemLength_cons (blocks brackets : Nat) (tok : Lexeme) (toks : List Lexeme) :
    itemLength blocks brackets (tok :: toks) =
      if tok.token.endsItem blocks brackets then 0
      else
        itemLength (tok.token.blocksAfter blocks) (tok.token.bracketsAfter brackets) toks + 1 := by
  cases ht : tok.token <;>
    simp [itemLength, ht, Token.endsItem, Token.blocksAfter, Token.bracketsAfter]

/-- An item that reading has led into, if not over, is skipped at least in part. -/
theorem Leads.before_skipItem (h : c.Leads c₁) (hc : c.eof.token = .eof)
    (hstart : c.token.endsItem 0 0 = false) : c.Before c₁.skipItem := by
  rcases h.before_or with hbefore | htoken
  · exact hbefore.trans (leads_skipItem c₁)
  · exact h.before (Cursor.before_skipItem (h.ended hc) (by rwa [htoken]))

end Cursor

namespace PartialParser

variable {c : Cursor}

theorem skipItem_over {blocks brackets : Nat} (h : c.token.endsItem blocks brackets = true) :
    skipItem blocks brackets c = .some (pure (), c) := by
  refine Part.eq_some_iff.2 (PFun.fix_stop ?_)
  simp [nextToken, h]

theorem skipItem_next {blocks brackets : Nat} (h : c.token.endsItem blocks brackets = false) :
    skipItem blocks brackets c =
      skipItem (c.token.blocksAfter blocks) (c.token.bracketsAfter brackets) c.advance := by
  refine PFun.fix_fwd_eq ?_
  simp [nextToken, h]

/-- Token by token an item is skipped as far as at once. -/
theorem skipItem_apply (hc : c.eof.token = .eof) (blocks brackets : Nat) :
    skipItem blocks brackets c =
      .some (pure (), c.skip (Cursor.itemLength blocks brackets c.ahead)) := by
  induction hahead : c.ahead generalizing c blocks brackets with
  | nil =>
    have hend : c.token = .eof := by rw [Cursor.token, Cursor.current_of_ahead_nil hahead, hc]
    rw [skipItem_over (by simp [hend, Token.endsItem])]
    simp [Cursor.itemLength]
  | cons tok toks ih =>
    have htok : c.token = tok.token := by rw [Cursor.token, Cursor.token_eq_of_ahead hahead]
    rw [Cursor.itemLength_cons, ← htok]
    cases hend : c.token.endsItem blocks brackets with
    | true => simp [skipItem_over hend]
    | false =>
      have heof : c.token ≠ .eof := fun heof => by simp [heof, Token.endsItem] at hend
      have hadvance : c.advance.ahead = toks := by
        rw [Cursor.advance_eq_skip heof, Cursor.ahead_skip, hahead]
        rfl
      rw [skipItem_next hend, ih ((Cursor.leads_advance c).ended hc) _ _ hadvance,
        Cursor.advance_eq_skip heof, Cursor.skip_skip, Nat.add_comm]
      simp

end PartialParser

namespace Parser

variable {α : Type} {w : PartialParser α} {p : Parser α} {c : Cursor}

/-! ## Items and blocks -/

/-- Separators that are read one by one are those that are skipped at once. -/
theorem exists_whileAt_separators (hc : c.eof.token = .eof) :
    ∃ toks, whileAt (·.token.isSeparator) advance c = (⟨[], .ok toks⟩, c.skipSeparators) := by
  induction hn : c.ahead.length using Nat.strongRecOn generalizing c with
  | _ n ih =>
    subst hn
    cases hsep : c.token.isSeparator with
    | false =>
      rw [whileAt_stop hsep, Cursor.skipSeparators_of_false hsep]
      exact ⟨[], rfl⟩
    | true =>
      obtain ⟨hbefore, hskip⟩ := Cursor.skipSeparators_of_true hc hsep
      obtain ⟨toks, htoks⟩ := ih _ hbefore.lt (hbefore.ended hc) rfl
      have hadvance : advance c = (⟨[], .ok c.current⟩, c.advance) := rfl
      rw [whileAt_round hsep hadvance hbefore.lt, htoks, hskip]
      exact ⟨c.current :: toks, rfl⟩

theorem moreItems_iff (hc : c.eof.token = .eof) :
    moreItems c = true ↔ c.skipSeparators.token.endsItem 0 0 = false := by
  have hsep := Cursor.isSeparator_skipSeparators hc
  rw [Token.endsItem_zero]
  simp [moreItems, Cursor.isAt, hsep]

namespace Ends

theorem separator (hc : c.eof.token = .eof) (h : c.token.isSeparator = true) :
    Ends (liftM Parser.advance) Parser.advance c fun _ => c.Before :=
  keyword hc fun heof => by simp [heof, Token.isSeparator] at h

theorem skipSeparators (hc : c.eof.token = .eof) :
    Ends PartialParser.skipSeparators (move Cursor.skipSeparators) c fun _ c' =>
      c' = c.skipSeparators := by
  obtain ⟨toks, htoks⟩ := exists_whileAt_separators hc
  have hends : Ends (PartialParser.whileAt (·.token.isSeparator) (liftM Parser.advance))
      (Parser.whileAt (·.token.isSeparator) Parser.advance) c fun as c' => as ≠ [] → c.Before c' :=
    whileAt hc fun _ hc₁ hsep => separator hc₁ hsep
  refine ⟨?_, Cursor.leads_skipSeparators c, fun _ _ => rfl⟩
  have hskip : (do let _ ← Parser.whileAt (·.token.isSeparator) Parser.advance : Parser Unit) c =
      move Cursor.skipSeparators c := by
    simp only [Bind.bind, Parser.andThen, htoks]
    rfl
  rw [← hskip]
  exact (hends.bind (S := fun _ _ => True) fun _ _ _ _ => .pure trivial).run

theorem skipItem (hc : c.eof.token = .eof) :
    Ends (PartialParser.skipItem 0 0) (move Cursor.skipItem) c fun _ c' => c' = c.skipItem :=
  ⟨PartialParser.skipItem_apply hc 0 0, Cursor.leads_skipItem c, fun _ _ => rfl⟩

/-- An item that has begun is read or skipped, at least one token of it, even if
its parser reads nothing. -/
theorem item {Q : α → Cursor → Prop} (hc : c.eof.token = .eof)
    (hstart : c.token.endsItem 0 0 = false) (h : Ends w p c Q) :
    Ends w.item (Parser.item p) c fun _ => c.Before := by
  rw [item_eq]
  -- whatever has been recorded, the rest of the item is skipped from where reading stopped
  have hskip : ∀ {c₁ : Cursor} (ds : List Diagnostic) (o : Option α), c.Leads c₁ →
      Ends (do liftM (Parser.record ds); PartialParser.skipItem 0 0; return o)
        (do Parser.record ds; move Cursor.skipItem; return o) c₁ fun _ => c.Before := by
    intro c₁ ds o h₁
    refine record.bind fun _ c₂ h₂ _ => ?_
    have hlead := h₁.trans h₂
    refine (skipItem (hlead.ended hc)).bind fun _ c₃ _ h₃ => .pure ?_
    rw [h₃]
    exact hlead.before_skipItem hc hstart
  refine h.attempt.bind fun result c₁ h₁ _ => ?_
  cases result with
  | error d => exact hskip [d] none h₁
  | ok a =>
    refine lookIf (fun hend => .pure ?_) fun _ => look (hskip _ (some a) h₁)
    rcases h₁.before_or with hbefore | htoken
    · exact hbefore
    · obtain ⟨hsep, hclose, -⟩ := Token.endsItem_zero.1 hstart
      simp [atItemEnd, Cursor.isAt, htoken, hsep, hclose] at hend

/-- A round of a block: an item, with the separators before it. -/
theorem nextItem {Q : Cursor → α → Cursor → Prop} (hc : c.eof.token = .eof)
    (hmore : moreItems c = true) (h : ∀ c₁, c₁.eof.token = .eof → Ends w p c₁ (Q c₁)) :
    Ends (do PartialParser.skipSeparators; w.item) (do move Cursor.skipSeparators; Parser.item p) c
      fun _ => c.Before := by
  refine (skipSeparators hc).bind ?_
  rintro _ _ hleads rfl
  have hitem := item (hleads.ended hc) ((moreItems_iff hc).1 hmore) (h _ (hleads.ended hc))
  exact hitem.mono fun _ _ _ => hleads.before

/-- A block ends, whatever its items read. -/
theorem block {Q : Cursor → α → Cursor → Prop} (hc : c.eof.token = .eof)
    (h : ∀ c₁, c₁.eof.token = .eof → Ends w p c₁ (Q c₁)) :
    Ends (PartialParser.block w) (Parser.block p) c fun _ => c.Before := by
  refine (expect (t := .blockStart) hc nofun).first hc fun _ c₁ hc₁ => ?_
  refine (whileAt hc₁ fun _ hc₂ hmore => nextItem hc₂ hmore h).seq hc₁ fun items c₂ hc₂ => ?_
  refine (skipSeparators hc₂).seq hc₂ fun _ c₃ hc₃ => ?_
  refine eat.seq hc₃ fun closed c₄ hc₄ => ?_
  cases closed with
  | true => exact .pure trivial
  | false => exact .unexpected

end Ends

end Parser

end Offside
