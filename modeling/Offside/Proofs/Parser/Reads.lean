-- SUMMARY: A calculus for what a parser reads: which tokens give which value, and what may follow them.
import Mathlib.Data.List.Chain
import Offside.Proofs.Concrete.Respan
import Offside.Proofs.Lexeme.Scanned
import Offside.Proofs.Parser.Accepts

/-! # Reading written tokens

`Reads p ts view v follow` says that `p` reads exactly the tokens `ts`, wherever
they stand before a token that satisfies `follow`, and that it gives a value
with the view `v`. The view is what is known of the value: most often the value
up to spans. There is one rule for each combinator, so that a production is read
by the rules of its parts in the order in which they stand. -/

namespace Offside

/-- The first of some tokens, or the end of file after them. -/
def Token.first (ts : List Token) : Token := ts.head?.getD .eof

@[simp] theorem Token.first_nil : Token.first [] = .eof := rfl

@[simp] theorem Token.first_cons (t : Token) (ts : List Token) : Token.first (t :: ts) = t := rfl

/-- What holds of the first token of `ts`, if it has one, and of what follows. -/
theorem Token.first_append (ok : Token → Bool) {ts rest : List Token}
    (hts : ∀ t ∈ ts.head?, ok t = true) (hrest : ok (Token.first rest) = true) :
    ok (Token.first (ts ++ rest)) = true := by
  cases ts with
  | nil => exact hrest
  | cons t ts => exact hts t rfl

/-- A cursor over a stream whose dots stand directly between their neighbours. -/
structure Cursor.Spaced (c : Cursor) : Prop where
  eof : c.eof.token = .eof
  joined : c.ahead.IsChain Lexeme.Joined

namespace Cursor.Spaced

variable {c : Cursor}

theorem skip (h : c.Spaced) (n : Nat) : (c.skip n).Spaced where
  eof := h.eof
  joined := h.joined.suffix (List.drop_suffix n _)

theorem token_eq_first (h : c.Spaced) : c.token = Token.first c.tokens :=
  Cursor.token_eq h.eof

/-- The tokens after `ts` are those after it in the stream. -/
theorem tokens_skip {ts rest : List Token} (h : c.tokens = ts ++ rest) :
    (c.skip ts.length).tokens = rest := by
  simp [h]

end Cursor.Spaced

namespace Parser

variable {α β γ ι : Type} {p : Parser α} {ts ts₁ ts₂ : List Token} {view : α → β} {v : β}
  {follow follow' : Token → Bool}

/-- `p` reads the tokens `ts` before a token in `follow`, and what it gives has
the view `v`. -/
def Reads (p : Parser α) (ts : List Token) (view : α → β) (v : β) (follow : Token → Bool) : Prop :=
  ∀ c rest, c.Spaced → c.tokens = ts ++ rest → follow (Token.first rest) = true →
    ∃ a, p.Accepts c a (c.skip ts.length) ∧ view a = v

namespace Reads

/-! ## Sequencing -/

theorem pure {a : α} (h : view a = v) : Reads (pure a) [] view v follow := by
  intro c rest _ _ _
  exact ⟨a, accepts_pure_iff.2 ⟨rfl, by simp⟩, h⟩

theorem bind {q : α → Parser γ} {δ : Type} {view' : γ → δ} {v' : δ}
    (hp : Reads p ts₁ view v follow)
    (hfollow : ∀ rest, follow' (Token.first rest) = true →
      follow (Token.first (ts₂ ++ rest)) = true)
    (hq : ∀ a, view a = v → Reads (q a) ts₂ view' v' follow') :
    Reads (p >>= q) (ts₁ ++ ts₂) view' v' follow' := by
  intro c rest hc htoks hrest
  rw [List.append_assoc] at htoks
  obtain ⟨a, ha, hv⟩ := hp c (ts₂ ++ rest) hc htoks (hfollow rest hrest)
  obtain ⟨b, hb, hv'⟩ := hq a hv _ rest (hc.skip _) (Cursor.Spaced.tokens_skip htoks) hrest
  refine ⟨b, accepts_bind_iff.2 ⟨a, _, ha, ?_⟩, hv'⟩
  rwa [List.length_append, ← Cursor.skip_skip]

/-- Reading something whose value and followers do not matter. -/
theorem then_ {q : α → Parser γ} {δ : Type} {view' : γ → δ} {v' : δ}
    (hp : Reads p ts₁ view v fun _ => true) (hq : ∀ a, view a = v → Reads (q a) ts₂ view' v' follow') :
    Reads (p >>= q) (ts₁ ++ ts₂) view' v' follow' :=
  hp.bind (fun _ _ => rfl) hq

/-- Reading something after which nothing else is read. -/
theorem bindLast {q : α → Parser γ} {δ : Type} {view' : γ → δ} {v' : δ}
    (hp : Reads p ts view v follow) (hq : ∀ a, view a = v → Reads (q a) [] view' v' follow) :
    Reads (p >>= q) ts view' v' follow := by
  rw [← List.append_nil ts]
  exact hp.bind (fun _ h => h) hq

theorem map {f : α → γ} {δ : Type} {view' : γ → δ} {v' : δ} (hp : Reads p ts view v follow)
    (hf : ∀ a, view a = v → view' (f a) = v') : Reads (f <$> p) ts view' v' follow := by
  intro c rest hc htoks hrest
  obtain ⟨a, ha, hv⟩ := hp c rest hc htoks hrest
  exact ⟨f a, accepts_map_iff.2 ⟨a, ha, rfl⟩, hf a hv⟩

theorem mono (hp : Reads p ts view v follow) (h : ∀ t, follow' t = true → follow t = true) :
    Reads p ts view v follow' :=
  fun c rest hc htoks hrest => hp c rest hc htoks (h _ hrest)

/-- What is known of the value may be put in another way. -/
theorem weaken {δ : Type} {view' : α → δ} {v' : δ} (hp : Reads p ts view v follow)
    (h : ∀ a, view a = v → view' a = v') : Reads p ts view' v' follow := by
  intro c rest hc htoks hrest
  obtain ⟨a, ha, hv⟩ := hp c rest hc htoks hrest
  exact ⟨a, ha, h a hv⟩

/-! ## Looking -/

/-- Looking at something that the tokens ahead decide. -/
theorem look {f : Cursor → γ} {x : γ} {q : γ → Parser α}
    (hf : ∀ c rest, c.Spaced → c.tokens = ts ++ rest → follow (Token.first rest) = true → f c = x)
    (hq : Reads (q x) ts view v follow) : Reads (Parser.look f >>= q) ts view v follow := by
  intro c rest hc htoks hrest
  obtain ⟨a, ha, hv⟩ := hq c rest hc htoks hrest
  exact ⟨a, accepts_bind_iff.2 ⟨x, c, accepts_look_iff.2 ⟨hf c rest hc htoks hrest, rfl⟩, ha⟩, hv⟩

/-- Looking at the current token, which is the first one of `ts`. -/
theorem lookToken {t : Token} {q : Token → Parser α} (hts : ts.head? = some t)
    (hq : Reads (q t) ts view v follow) : Reads (Parser.look (·.token) >>= q) ts view v follow := by
  obtain ⟨us, rfl⟩ := List.head?_eq_some_iff.1 hts
  exact look (fun c rest hc htoks _ => by rw [hc.token_eq_first, htoks]; rfl) hq

/-- Looking at something that does not decide how reading goes on. -/
theorem lookAny {f : Cursor → γ} {q : γ → Parser α} (hq : ∀ x, Reads (q x) ts view v follow) :
    Reads (Parser.look f >>= q) ts view v follow := by
  intro c rest hc htoks hrest
  obtain ⟨a, ha, hv⟩ := hq (f c) c rest hc htoks hrest
  exact ⟨a, accepts_bind_iff.2 ⟨f c, c, accepts_look_iff.2 ⟨rfl, rfl⟩, ha⟩, hv⟩

theorem start {q : Nat → Parser α} (hq : ∀ n, Reads (q n) ts view v follow) :
    Reads (Parser.start >>= q) ts view v follow :=
  lookAny hq

theorem spanFrom {n : Nat} {q : Span → Parser α} (hq : ∀ span, Reads (q span) ts view v follow) :
    Reads (Parser.spanFrom n >>= q) ts view v follow :=
  lookAny hq

/-! ## Single tokens -/

theorem advance {t : Token} (ht : t ≠ .eof) :
    Reads Parser.advance [t] (·.token) t fun _ => true := by
  intro c rest hc htoks _
  have hat : c.token = t := by rw [hc.token_eq_first, htoks]; rfl
  exact ⟨c.current, accepts_advance_iff.2 ⟨rfl, Cursor.advance_eq_skip (hat ▸ ht)⟩, hat⟩

theorem expect {t : Token} {context : String} (ht : t ≠ .eof) :
    Reads (Parser.expect t context) [t] id () fun _ => true := by
  intro c rest hc htoks _
  have hat : c.token = t := by rw [hc.token_eq_first, htoks]; rfl
  exact ⟨(), accepts_expect_iff.2 ⟨hat, Cursor.advance_eq_skip (hat ▸ ht)⟩, rfl⟩

theorem eat {t : Token} (ht : t ≠ .eof) : Reads (Parser.eat t) [t] id true fun _ => true := by
  intro c rest hc htoks _
  have hat : c.token = t := by rw [hc.token_eq_first, htoks]; rfl
  exact ⟨true, accepts_eat_iff.2 (.inl ⟨hat, rfl, Cursor.advance_eq_skip (hat ▸ ht)⟩), rfl⟩

/-- Where another token stands, `eat` reads nothing. -/
theorem eatNone {t : Token} : Reads (Parser.eat t) [] id false (· ≠ t) := by
  intro c rest hc htoks hrest
  have hat : c.token ≠ t := by rw [hc.token_eq_first, htoks]; simpa using hrest
  exact ⟨false, accepts_eat_iff.2 (.inr ⟨hat, rfl, by simp⟩), rfl⟩

/-- A name that is ahead is read, with its span. -/
theorem accepts_name {expected : String} {c : Cursor} {n : Name} {tok : Lexeme}
    {toks : List Lexeme} (hahead : c.ahead = tok :: toks) (htok : tok.token = n.token) :
    (Parser.name expected).Accepts c ⟨n.text, tok.span⟩ (c.skip 1) := by
  have hcurrent : c.current = tok := Cursor.token_eq_of_ahead hahead
  have hat : c.token = .ident n.text := by rw [Cursor.token, hcurrent, htok, Name.token]
  refine accepts_name_iff.2 ⟨n.text, hat, by rw [hcurrent], ?_⟩
  exact Cursor.advance_eq_skip (by simp [hat])

theorem name {expected : String} (n : Name) :
    Reads (Parser.name expected) [n.token] (Name.respan .bare) (n.respan .bare) fun _ => true := by
  intro c rest _ htoks _
  obtain ⟨tok, toks, hahead, htok, -⟩ := List.map_eq_cons_iff.1 htoks
  exact ⟨_, accepts_name hahead htok, rfl⟩

/-! ## A token and what follows it -/

section

variable {t : Token}

theorem advance_bind {q : Lexeme → Parser α} (ht : t ≠ .eof)
    (hq : ∀ tok, tok.token = t → Reads (q tok) ts view v follow) :
    Reads (Parser.advance >>= q) (t :: ts) view v follow :=
  (Reads.advance ht).then_ hq

theorem expect_bind {q : Unit → Parser α} {context : String} (ht : t ≠ .eof)
    (hq : Reads (q ()) ts view v follow) :
    Reads (Parser.expect t context >>= q) (t :: ts) view v follow :=
  (Reads.expect ht).then_ fun _ _ => hq

theorem eat_bind {q : Bool → Parser α} (ht : t ≠ .eof) (hq : Reads (q true) ts view v follow) :
    Reads (Parser.eat t >>= q) (t :: ts) view v follow :=
  (Reads.eat ht).then_ fun b hb => by
    obtain rfl : b = true := hb
    exact hq

theorem eatNone_bind {q : Bool → Parser α}
    (hnot : ∀ rest, follow (Token.first rest) = true → Token.first (ts ++ rest) ≠ t)
    (hq : Reads (q false) ts view v follow) : Reads (Parser.eat t >>= q) ts view v follow :=
  Reads.eatNone.bind (fun rest h => by simpa using hnot rest h) fun b hb => by
    obtain rfl : b = false := hb
    exact hq

theorem name_bind {q : Name → Parser α} {expected : String} (n : Name)
    (hq : ∀ a, a.respan .bare = n.respan .bare → Reads (q a) ts view v follow) :
    Reads (Parser.name expected >>= q) (n.token :: ts) view v follow :=
  (Reads.name n).then_ hq

theorem optionalSome (ht : t ≠ .eof) (hp : Reads p ts view v follow) :
    Reads (Parser.optional t p) (t :: ts) (Option.map view) (some v) follow :=
  Reads.eat_bind ht (hp.map fun a ha => by rw [Option.map_some, ha])

theorem optionalNone : Reads (Parser.optional t p) [] (Option.map view) none (· ≠ t) :=
  Reads.eatNone_bind (fun _ h => by simpa using h) (Reads.pure rfl)

end

/-! ## Repetition -/

/-- Items one after another. Each begins with a token for which the repetition
goes on, and that may follow an item. -/
theorem whileAt (go follow : Token → Bool) {more : Cursor → Bool} {xs : List ι}
    {write : ι → List Token} {value : ι → β} (hmore : ∀ c : Cursor, more c = go c.token)
    (hitem : ∀ x ∈ xs, Reads p (write x) view (value x) follow)
    (hhead : ∀ x ∈ xs, ∃ t us, write x = t :: us ∧ go t = true ∧ follow t = true) :
    Reads (Parser.whileAt more p) (xs.flatMap write) (List.map view) (xs.map value)
      fun t => !go t && follow t := by
  induction xs with
  | nil =>
    intro c rest hc htoks hrest
    have hstop : more c = false := by
      rw [hmore, hc.token_eq_first, htoks]
      simp only [Bool.and_eq_true, Bool.not_eq_true'] at hrest
      exact hrest.1
    exact ⟨[], by simpa using accepts_whileAt_stop hstop, rfl⟩
  | cons x xs ih =>
    intro c rest hc htoks hrest
    obtain ⟨t, us, hx, hgo, -⟩ := hhead x List.mem_cons_self
    rw [List.flatMap_cons, List.append_assoc] at htoks
    have hnext : follow (Token.first (xs.flatMap write ++ rest)) = true := by
      cases xs with
      | nil => simpa using (Bool.and_eq_true_iff.1 hrest).2
      | cons y ys =>
        obtain ⟨t', us', hy, -, hfollow⟩ := hhead y (by simp)
        simpa [hy] using hfollow
    obtain ⟨a, ha, hv⟩ := hitem x List.mem_cons_self c _ hc htoks hnext
    obtain ⟨as, has, hvs⟩ := ih (fun y hy => hitem y (List.mem_cons_of_mem _ hy))
      (fun y hy => hhead y (List.mem_cons_of_mem _ hy)) _ rest (hc.skip _)
      (Cursor.Spaced.tokens_skip htoks) hrest
    have hlen : 0 < (write x).length := by rw [hx]; exact Nat.succ_pos _
    have hahead : (write x).length ≤ c.ahead.length := by
      have := congrArg List.length htoks
      simp only [Cursor.tokens, List.length_map, List.length_append] at this
      omega
    refine ⟨a :: as, ?_, by rw [List.map_cons, List.map_cons, hv, hvs]⟩
    rw [List.flatMap_cons, List.length_append, ← Cursor.skip_skip]
    refine accepts_whileAt_cons ?_ ha ?_ has
    · rw [hmore, hc.token_eq_first, htoks, hx]
      exact hgo
    · rw [Cursor.ahead_skip, List.length_drop]
      omega

theorem names {expected : String} {ns : List Name} (h : ns ≠ []) :
    Reads (Parser.names expected) (ns.map Name.token) (List.map (Name.respan .bare))
      (ns.map (Name.respan .bare)) (!·.isIdent) := by
  obtain ⟨n, ns, rfl⟩ := List.exists_cons_of_ne_nil h
  have hrest : Reads (Parser.whileAt atIdent (Parser.name expected))
      (ns.flatMap fun n => [n.token]) (List.map (Name.respan .bare)) (ns.map (Name.respan .bare))
      fun t => !t.isIdent && true :=
    Reads.whileAt Token.isIdent (fun _ => true) (fun _ => rfl) (fun n _ => Reads.name n)
      (fun n _ => ⟨n.token, [], rfl, rfl, rfl⟩)
  rw [← List.map_eq_flatMap] at hrest
  refine Reads.name_bind n fun first hfirst => ?_
  refine Reads.bindLast (hrest.mono fun t h => by simpa using h) fun others hothers => ?_
  exact Reads.pure (by rw [List.map_cons, List.map_cons, hfirst, hothers])

/-! ## Qualified names -/

/-- A dot that comes next stands directly after `stop`. -/
private def After (stop : Nat) (c : Cursor) : Prop :=
  ∀ tok ∈ c.ahead.head?, tok.token = .dot → tok.span.start = stop

private theorem after_skip {c : Cursor} (pre : List Lexeme) {toks : List Lexeme} {tok : Lexeme}
    (hc : c.Spaced) (hahead : c.ahead = pre ++ tok :: toks) :
    After tok.span.stop (c.skip (pre.length + 1)) := by
  have hdrop : c.ahead.drop (pre.length + 1) = toks := by
    rw [hahead, ← List.drop_drop, List.drop_left]
    rfl
  intro next hnext hdot
  rw [Cursor.ahead_skip, hdrop] at hnext
  obtain ⟨rest, rfl⟩ := List.head?_eq_some_iff.1 hnext
  have hjoined := hc.joined
  rw [hahead] at hjoined
  exact ((List.isChain_cons_cons.1 hjoined.right_of_append).1.before hdot).symm

private theorem atSegment_of_ahead {c : Cursor} {stop : Nat} {dot tok : Lexeme} {toks : List Lexeme}
    (hc : c.Spaced) (hafter : After stop c) (hahead : c.ahead = dot :: tok :: toks)
    (hdot : dot.token = .dot) (hident : tok.token.isIdent = true) : atSegment stop c = true := by
  have hcur : c.current = dot := Cursor.token_eq_of_ahead hahead
  have hnext : c.peekAt 1 = tok := by simp [Cursor.peekAt, hahead]
  have hjoined := hc.joined
  rw [hahead] at hjoined
  have hstart : dot.span.start = stop := hafter dot (by simp [hahead]) hdot
  have hmeet : dot.span.stop = tok.span.start := (List.isChain_cons_cons.1 hjoined).1.after hdot
  simp [atSegment, Cursor.isAt, Cursor.token, hcur, hnext, hdot, hident, hstart, hmeet]

private theorem accepts_segment {c : Cursor} {n : Name} {dot tok : Lexeme} {toks : List Lexeme}
    (hahead : c.ahead = dot :: tok :: toks) (hdot : dot.token = .dot) (htok : tok.token = n.token) :
    Accepts (do let _ ← Parser.advance; Parser.name "a name after `.`") c ⟨n.text, tok.span⟩
      (c.skip 2) := by
  have hcur : c.current = dot := Cursor.token_eq_of_ahead hahead
  have hadv : c.advance = c.skip 1 :=
    Cursor.advance_eq_skip (by rw [Cursor.token, hcur, hdot]; simp)
  have hahead₁ : (c.skip 1).ahead = tok :: toks := by simp [hahead]
  refine accepts_bind_iff.2 ⟨dot, c.skip 1, accepts_advance_iff.2 ⟨hcur, hadv⟩, ?_⟩
  rw [← Cursor.skip_skip c 1 1]
  exact Reads.accepts_name hahead₁ htok

private theorem segments {first : Name} {ns : List Name} : ∀ last c rest, c.Spaced →
    After (last.getD first).span.stop c →
    c.tokens = ns.flatMap (fun n => [.dot, n.token]) ++ rest → Token.first rest ≠ .dot →
    ∃ as, Accepts (whileFrom (fun last => atSegment (last.getD first).span.stop)
        (do let _ ← Parser.advance; Parser.name "a name after `.`") last) c as
        (c.skip (2 * ns.length)) ∧
      as.map (Name.respan .bare) = ns.map (Name.respan .bare) := by
  induction ns with
  | nil =>
    intro last c rest hc _ htoks hrest
    have hstop : atSegment (last.getD first).span.stop c = false := by
      have hat : c.token ≠ .dot := by rw [hc.token_eq_first, htoks]; exact hrest
      simp [atSegment, Cursor.isAt, hat]
    exact ⟨[], by simpa using accepts_whileFrom_stop hstop, rfl⟩
  | cons n ns ih =>
    intro last c rest hc hafter htoks hrest
    rw [List.flatMap_cons, List.append_assoc] at htoks
    obtain ⟨dot, toks, hahead, hdot, htoks'⟩ := List.map_eq_cons_iff.1 htoks
    obtain ⟨tok, toks', rfl, htok, htoks''⟩ := List.map_eq_cons_iff.1 htoks'
    have hmore := atSegment_of_ahead hc hafter hahead hdot (by rw [htok]; rfl)
    have hround := accepts_segment hahead hdot htok
    have hafter₂ : After tok.span.stop (c.skip 2) := after_skip [dot] hc hahead
    obtain ⟨as, has, hvs⟩ := ih (some ⟨n.text, tok.span⟩) (c.skip 2) rest (hc.skip 2) hafter₂
      (by rw [Cursor.tokens, Cursor.ahead_skip, hahead]; exact htoks'') hrest
    refine ⟨⟨n.text, tok.span⟩ :: as, ?_, by rw [List.map_cons, List.map_cons, hvs]; rfl⟩
    rw [List.length_cons, Nat.mul_add, Nat.add_comm, ← Cursor.skip_skip]
    have hshorter : (c.skip 2).ahead.length < c.ahead.length := by
      simp only [Cursor.ahead_skip, List.length_drop, hahead, List.length_cons]
      omega
    exact accepts_whileFrom_cons hmore hround hshorter has

theorem qualifiedName {expected : String} {q : QualifiedName} (h : q.segments ≠ []) :
    Reads (Parser.qualifiedName expected) q.tokens (QualifiedName.respan .bare) (q.respan .bare)
      (· ≠ .dot) := by
  obtain ⟨span, segs⟩ := q
  obtain ⟨n, ns, rfl⟩ := List.exists_cons_of_ne_nil h
  have hwritten : QualifiedName.tokens ⟨span, n :: ns⟩ =
      n.token :: ns.flatMap (fun n => [.dot, n.token]) :=
    QualifiedName.tokens_cons span n ns
  intro c rest hc htoks hrest
  rw [hwritten] at htoks
  obtain ⟨tok, toks, hahead, htok, htoks'⟩ := List.map_eq_cons_iff.1 htoks
  have hfirst : Accepts (Parser.name expected) c ⟨n.text, tok.span⟩ (c.skip 1) :=
    Reads.accepts_name hahead htok
  have htoks₁ : (c.skip 1).tokens = ns.flatMap (fun n => [.dot, n.token]) ++ rest := by
    rw [Cursor.tokens_skip, htoks]
    rfl
  have hafter : After ((none : Option Name).getD ⟨n.text, tok.span⟩).span.stop (c.skip 1) :=
    after_skip [] hc hahead
  obtain ⟨others, hothers, hvs⟩ :=
    segments none (c.skip 1) rest (hc.skip 1) hafter htoks₁ (by simpa using hrest)
  refine ⟨_, accepts_bind_iff.2 ⟨_, _, hfirst, accepts_bind_iff.2 ⟨others, _, hothers,
    accepts_pure_iff.2 ⟨rfl, ?_⟩⟩⟩, ?_⟩
  · rw [hwritten, Cursor.skip_skip]
    simp [List.length_flatMap, Nat.add_comm, Nat.mul_comm]
  · simp only [QualifiedName.respan, List.map_cons, hvs]
    rfl

/-! ## Blocks -/

/-- May stand after an item of a block. -/
def endsItem (t : Token) : Bool := t.isSeparator || t = .blockEnd

theorem endsItem_cases {t : Token} (h : endsItem t = true) :
    t = .blockSep ∨ t = .semicolon ∨ t = .blockEnd := by
  cases t <;> simp_all [endsItem, Token.isSeparator]

/-- May stand first in an item of a block. -/
def startsItem (t : Token) : Bool := !t.isSeparator && t != .blockEnd && t != .eof

private theorem skipSeparators_eq {c : Cursor} {n : Nat} {t : Token} (seps : List Token)
    {ts : List Token}
    (htoks : c.tokens = seps ++ t :: ts) (hlen : seps.length = n)
    (hseps : ∀ s ∈ seps, s.isSeparator = true) (ht : t.isSeparator = false) :
    c.skipSeparators = c.skip n := by
  have htake : (c.ahead.takeWhile (·.token.isSeparator)).length =
      (c.tokens.takeWhile Token.isSeparator).length := by
    rw [Cursor.tokens, List.takeWhile_map, List.length_map]
    rfl
  rw [Cursor.skipSeparators, htake, htoks, List.takeWhile_append_of_pos hseps,
    List.takeWhile_cons_of_neg (by simp [ht]), List.append_nil, hlen]

/-- One round of a block: separators and an item. -/
private theorem round (seps : List Token) {x : ι} {write : ι → List Token} {value : ι → β}
    {rest : List Token}
    (hitem : Reads p (write x) view (value x) endsItem)
    (hhead : ∃ t us, write x = t :: us ∧ startsItem t = true)
    (hseps : ∀ s ∈ seps, s.isSeparator = true) {c : Cursor} (hc : c.Spaced)
    (htoks : c.tokens = seps ++ (write x ++ rest)) (hrest : endsItem (Token.first rest) = true) :
    moreItems c = true ∧ ∃ a, Accepts (do Parser.move Cursor.skipSeparators; Parser.item p) c
      (some a) (c.skip (seps ++ write x).length) ∧ view a = value x := by
  obtain ⟨t, us, hx, ht⟩ := hhead
  simp only [startsItem, Bool.and_eq_true, Bool.not_eq_true', bne_iff_ne] at ht
  obtain ⟨⟨hsep, hend⟩, heof⟩ := ht
  have hskip : c.skipSeparators = c.skip seps.length :=
    skipSeparators_eq seps (by rw [htoks, hx]; rfl) rfl hseps hsep
  have htoks' : (c.skip seps.length).tokens = write x ++ rest := Cursor.Spaced.tokens_skip htoks
  have hat : (c.skip seps.length).token = t := by
    rw [(hc.skip _).token_eq_first, htoks', hx]
    rfl
  refine ⟨by simp [moreItems, hskip, Cursor.isAt, hat, hend, heof], ?_⟩
  obtain ⟨a, ha, hv⟩ := hitem _ rest (hc.skip _) htoks' hrest
  refine ⟨a, ?_, hv⟩
  rw [List.length_append, ← Cursor.skip_skip]
  refine accepts_bind_iff.2 ⟨(), _, accepts_move_iff.2 hskip, accepts_item_iff.2 ⟨a, ha, ?_, rfl⟩⟩
  rw [atItemEnd, Cursor.isAt, ((hc.skip _).skip _).token_eq_first,
    Cursor.Spaced.tokens_skip htoks']
  exact hrest

/-- The items of a block, when each comes after the separators `seps`. -/
private theorem rounds {xs : List ι} {write : ι → List Token} {value : ι → β} {sep : Token}
    (hsep : sep.isSeparator = true)
    (hitem : ∀ x ∈ xs, Reads p (write x) view (value x) endsItem)
    (hhead : ∀ x ∈ xs, ∃ t us, write x = t :: us ∧ startsItem t = true) :
    ∀ c rest, c.Spaced → c.tokens = xs.flatMap (fun x => sep :: write x) ++ .blockEnd :: rest →
      ∃ as : List α, Accepts (Parser.whileAt moreItems (do
          Parser.move Cursor.skipSeparators
          Parser.item p)) c (as.map some)
          (c.skip (xs.flatMap fun x => sep :: write x).length) ∧ as.map view = xs.map value := by
  induction xs with
  | nil =>
    intro c rest hc htoks
    have hskip : c.skipSeparators = c.skip 0 :=
      skipSeparators_eq [] htoks rfl (by simp) rfl
    have hat : c.token = .blockEnd := by rw [hc.token_eq_first, htoks]; rfl
    have hstop : moreItems c = false := by simp [moreItems, hskip, Cursor.isAt, hat]
    exact ⟨[], by simpa using accepts_whileAt_stop hstop, rfl⟩
  | cons x xs ih =>
    intro c rest hc htoks
    rw [List.flatMap_cons, List.append_assoc] at htoks
    have hrest : endsItem (Token.first
        (xs.flatMap (fun x => sep :: write x) ++ .blockEnd :: rest)) = true := by
      cases xs with
      | nil => rfl
      | cons y ys => simp [endsItem, hsep]
    obtain ⟨hmore, a, ha, hv⟩ := round [sep] (hitem x List.mem_cons_self)
      (hhead x List.mem_cons_self) (by simpa using hsep) hc htoks hrest
    obtain ⟨as, has, hvs⟩ := ih (fun y hy => hitem y (List.mem_cons_of_mem _ hy))
      (fun y hy => hhead y (List.mem_cons_of_mem _ hy)) _ rest (hc.skip (sep :: write x).length)
      (Cursor.Spaced.tokens_skip htoks)
    refine ⟨a :: as, ?_, by rw [List.map_cons, List.map_cons, hv, hvs]⟩
    rw [List.flatMap_cons, List.length_append, ← Cursor.skip_skip]
    refine accepts_whileAt_cons hmore ha ?_ has
    have hlen := congrArg List.length htoks
    simp only [Cursor.tokens, List.length_map, List.length_append] at hlen
    rw [Cursor.ahead_skip, List.length_drop, List.singleton_append, List.length_cons]
    simp only [List.length_cons] at hlen
    omega

/-- The items of a block, with separators between. -/
private theorem items {xs : List ι} {write : ι → List Token} {value : ι → β} {sep : Token}
    (hsep : sep.isSeparator = true)
    (hitem : ∀ x ∈ xs, Reads p (write x) view (value x) endsItem)
    (hhead : ∀ x ∈ xs, ∃ t us, write x = t :: us ∧ startsItem t = true) :
    ∀ c rest, c.Spaced → c.tokens = [sep].intercalate (xs.map write) ++ .blockEnd :: rest →
      ∃ as : List α, Accepts (Parser.whileAt moreItems (do
          Parser.move Cursor.skipSeparators
          Parser.item p)) c (as.map some)
          (c.skip ([sep].intercalate (xs.map write)).length) ∧ as.map view = xs.map value := by
  intro c rest hc htoks
  cases xs with
  | nil => exact rounds hsep hitem hhead c rest hc htoks
  | cons x xs =>
    -- The first item comes after no separator, every other one after one.
    rw [List.map_cons, intercalate_cons, List.flatMap_map] at htoks ⊢
    rw [List.append_assoc] at htoks
    have hrest : endsItem (Token.first
        (xs.flatMap (fun x => [sep] ++ write x) ++ .blockEnd :: rest)) = true := by
      cases xs with
      | nil => rfl
      | cons y ys => simp [endsItem, hsep]
    obtain ⟨hmore, a, ha, hv⟩ := round [] (hitem x List.mem_cons_self)
      (hhead x List.mem_cons_self) (by simp) hc htoks hrest
    obtain ⟨as, has, hvs⟩ := rounds hsep (fun y hy => hitem y (List.mem_cons_of_mem _ hy))
      (fun y hy => hhead y (List.mem_cons_of_mem _ hy)) _ rest (hc.skip (write x).length)
      (Cursor.Spaced.tokens_skip htoks)
    refine ⟨a :: as, ?_, by rw [List.map_cons, List.map_cons, hv, hvs]⟩
    rw [List.length_append, ← Cursor.skip_skip]
    refine accepts_whileAt_cons hmore ha ?_ has
    obtain ⟨t, us, hx, -⟩ := hhead x List.mem_cons_self
    have hlen := congrArg List.length htoks
    simp only [Cursor.tokens, List.length_map, List.length_append, hx, List.length_cons] at hlen
    rw [Cursor.ahead_skip, List.length_drop, List.nil_append, hx, List.length_cons]
    omega

/-- A block of items, each of which is read by itself. -/
theorem block {xs : List ι} {write : ι → List Token} {value : ι → β} {sep : Token}
    (hsep : sep.isSeparator = true)
    (hitem : ∀ x ∈ xs, Reads p (write x) view (value x) endsItem)
    (hhead : ∀ x ∈ xs, ∃ t us, write x = t :: us ∧ startsItem t = true) :
    Reads (Parser.block p) ((Style.marked sep).block (xs.map write)) (List.map view)
      (xs.map value) follow := by
  intro c rest hc htoks _
  have htoks' : c.tokens = .blockStart :: ([sep].intercalate (xs.map write) ++ .blockEnd :: rest) := by
    rw [htoks, Style.block, Style.marked]
    simp
  have hat : c.token = .blockStart := by rw [hc.token_eq_first, htoks']; rfl
  have hadv : c.advance = c.skip 1 := Cursor.advance_eq_skip (by simp [hat])
  have htoks₁ : (c.skip 1).tokens = [sep].intercalate (xs.map write) ++ .blockEnd :: rest := by
    rw [Cursor.tokens_skip, htoks']
    rfl
  obtain ⟨as, has, hvs⟩ := items hsep hitem hhead _ rest (hc.skip 1) htoks₁
  -- What is left after the items is the closing marker.
  have htoks₂ := Cursor.Spaced.tokens_skip htoks₁
  have hend : ((c.skip 1).skip ([sep].intercalate (xs.map write)).length).token = .blockEnd := by
    rw [((hc.skip 1).skip _).token_eq_first, htoks₂]
    rfl
  have hskip := skipSeparators_eq [] htoks₂ rfl (by simp) rfl
  refine ⟨as, accepts_block_iff.2 ⟨hat, as.map some, (c.skip 1).skip _, by rwa [hadv], ?_, ?_, ?_⟩,
    hvs⟩
  · rw [hskip, List.length_nil, Cursor.skip_zero, hend]
  · rw [hskip, List.length_nil, Cursor.skip_zero, Cursor.advance_eq_skip (by simp [hend]), Cursor.skip_skip,
      Cursor.skip_skip]
    simp [Style.block, Style.marked, Nat.add_comm, Nat.add_left_comm]
  · simp [List.filterMap_map]

end Reads

end Parser

end Offside
