-- SUMMARY: How parsers move over a text, and where what they give lies in it: one rule for each combinator.
import Offside.Proofs.Lexeme.Ordered
import Offside.Proofs.Parser.Accepts
import Offside.Proofs.Report.Outcome

/-! # Parsers and places

A parser moves on, whether it gives a value, fails or recovers: the end of the
text that has been read never goes back, and never passes the current token.
Its problems are at stretches of the text. `Spans` says this of a run of a
parser, together with what holds of its value. Most values lie wherever the text
lies that was read for them, `Within`. Every combinator has one rule. -/

namespace Offside

/-! ## Cursors -/

namespace Cursor

variable {source : String} {c : Cursor}

/-- Where the current token starts. -/
def front (c : Cursor) : Nat := c.current.span.start

/-- The tokens ahead stand in `source` one after another, and behind the text
that has been read. -/
structure Ordered (source : String) (c : Cursor) : Prop where
  ahead : Lexeme.Ordered source c.lastEnd (c.ahead ++ [c.eof])
  read : Text.IsBoundary source c.lastEnd
  eof : c.eof.token = .eof

/-- Reading has gone on from `c` to `c'`, and not past the current token. -/
abbrev Onward (c c' : Cursor) : Prop :=
  c.lastEnd ≤ c'.lastEnd ∧ c.front ≤ c'.front ∧ c'.lastEnd ≤ c'.front

theorem current_mem (c : Cursor) : c.current ∈ c.ahead ++ [c.eof] := by
  cases h : c.ahead with
  | nil => simp [current_of_ahead_nil h]
  | cons tok toks => simp [token_eq_of_ahead h]

theorem exists_cons (c : Cursor) : ∃ toks, c.ahead ++ [c.eof] = c.current :: toks := by
  cases h : c.ahead with
  | nil => exact ⟨[], by simp [current_of_ahead_nil h]⟩
  | cons tok toks => exact ⟨toks ++ [c.eof], by simp [token_eq_of_ahead h]⟩

/-- Reading lexemes leaves the ones after them in order. -/
theorem ordered_readEnd {offset : Nat} {toks rest : List Lexeme}
    (h : Lexeme.Ordered source offset (toks ++ rest)) (hoffset : Text.IsBoundary source offset) :
    offset ≤ readEnd offset toks ∧ Text.IsBoundary source (readEnd offset toks) ∧
      Lexeme.Ordered source (readEnd offset toks) rest := by
  induction toks generalizing offset with
  | nil => exact ⟨Nat.le_refl _, hoffset, h⟩
  | cons tok toks ih =>
    cases h with
    | cons after first others =>
      have hle := first.le
      have hcons : readEnd offset (tok :: toks) =
          readEnd (if tok.span.isEmpty then offset else tok.span.stop) toks := rfl
      rw [hcons]
      split
      · exact ih (others.mono (by omega)) hoffset
      · obtain ⟨hend, hrest⟩ := ih others first.stop
        exact ⟨by omega, hrest⟩

namespace Ordered

theorem stands (h : c.Ordered source) : c.current.Stands source := by
  obtain ⟨toks, htoks⟩ := c.exists_cons
  have hahead := h.ahead
  rw [htoks] at hahead
  cases hahead with
  | cons _ first _ => exact first

theorem lastEnd_le (h : c.Ordered source) : c.lastEnd ≤ c.front :=
  h.ahead.le_of_mem c.current_mem

theorem front_le (h : c.Ordered source) {tok : Lexeme} (htok : tok ∈ c.ahead ++ [c.eof]) :
    c.front ≤ tok.span.start := by
  obtain ⟨toks, htoks⟩ := c.exists_cons
  have hahead := h.ahead
  rw [htoks] at hahead htok
  cases hahead with
  | cons _ first rest => exact (Lexeme.Ordered.cons (Nat.le_refl _) first rest).le_of_mem htok

theorem onward_refl (h : c.Ordered source) : c.Onward c :=
  ⟨Nat.le_refl _, Nat.le_refl _, h.lastEnd_le⟩

theorem skip (h : c.Ordered source) (n : Nat) :
    (c.skip n).Ordered source ∧ c.Onward (c.skip n) := by
  have hsplit : c.ahead ++ [c.eof] = c.ahead.take n ++ (c.ahead.drop n ++ [c.eof]) := by
    rw [← List.append_assoc, List.take_append_drop]
  obtain ⟨hend, hread, hrest⟩ := ordered_readEnd (hsplit ▸ h.ahead) h.read
  have hskip : (c.skip n).Ordered source := ⟨hrest, hread, h.eof⟩
  refine ⟨hskip, hend, h.front_le ?_, hskip.lastEnd_le⟩
  rw [hsplit]
  exact List.mem_append_right _ (c.skip n).current_mem

/-- An end of file has no text, so there reading it changes nothing. -/
theorem advance_eq (h : c.Ordered source) (hc : c.token = .eof) : c.advance = c := by
  have hempty : c.current.span.isEmpty = true := h.stands.eof hc
  simp [Cursor.advance, isAt, hc, readEnd, hempty]

theorem advance (h : c.Ordered source) : c.advance.Ordered source ∧ c.Onward c.advance := by
  by_cases hc : c.token = .eof
  · rw [h.advance_eq hc]
    exact ⟨h, h.onward_refl⟩
  · rw [advance_eq_skip hc]
    exact h.skip 1

/-- A token of the text is read to its end. -/
theorem lastEnd_advance (h : c.Ordered source) (hc : c.token.hasText = true) :
    c.advance.lastEnd = c.current.span.stop ∧ c.front < c.advance.lastEnd := by
  obtain ⟨hvirtual, hne⟩ : c.token.isVirtual = false ∧ c.token ≠ .eof := by
    simpa [Token.hasText] using hc
  have hlt : c.front < c.current.span.stop := h.stands.width hvirtual hne
  have hempty : c.current.span.isEmpty = false := beq_false_of_ne (Nat.ne_of_lt hlt)
  have hend : c.advance.lastEnd = c.current.span.stop := by
    rw [advance_eq_skip hne, lastEnd_skip, ahead_eq_cons h.eof hne]
    simp [readEnd, hempty]
  exact ⟨hend, hend ▸ hlt⟩

end Ordered

end Cursor

namespace Parser

variable {α β : Type} {source : String} {p : Parser α} {c c₀ c₁ c₂ : Cursor} {t : Token}

/-! ## Runs of a parser -/

/-- The parser goes on from `c` in the order of the text, whatever its outcome,
its problems are at stretches of the text, and `Q` holds of a value that it gives
and of where it stands then. -/
structure Spans (source : String) (p : Parser α) (c : Cursor) (Q : α → Cursor → Prop) : Prop where
  ordered : (p c).2.Ordered source
  onward : c.Onward (p c).2
  problems : (p c).1.Within (Diagnostic.Sited source)
  value : ∀ a, (p c).1.result = .ok a → Q a (p c).2

/-- `E` holds of `a` and every span around the text read from `c` to `c'`. -/
def Within (E : α → Span → Prop) (c : Cursor) (a : α) (c' : Cursor) : Prop :=
  ∀ first last, first ≤ c.front → c'.lastEnd ≤ last → E a ⟨first, last⟩

theorem Within.widen {E : α → Span → Prop} {a : α} {c' : Cursor} (h : Within E c₁ a c₂)
    (hfront : c.front ≤ c₁.front) (hend : c₂.lastEnd ≤ c'.lastEnd) : Within E c a c' :=
  fun first last hfirst hlast => h first last (by omega) (by omega)

/-- What lies within the text read is some text. -/
theorem Within.le {E : α → Span → Prop} {span : α → Span} {a : α} (h : Within E c₁ a c₂)
    (hE : Located source E span) : c₁.front ≤ c₂.lastEnd := by
  have hlies := hE _ _ (h c₁.front c₂.lastEnd (Nat.le_refl _) (Nat.le_refl _))
  have hle := hlies.le
  obtain ⟨hfirst, hlast⟩ := Span.contains_iff.1 hlies.inside
  simp only at hfirst hlast
  omega

/-- `E` holds of all values of a list, which were read one after another. -/
structure Spread (E : α → Span → Prop) (span : α → Span) (c : Cursor) (as : List α)
    (c' : Cursor) : Prop where
  each : Within (fun as outer => ∀ a ∈ as, E a outer) c as c'
  ordered : Span.Ordered (as.map span)

namespace Spread

variable {E : α → Span → Prop} {span : α → Span} {as bs : List α} {a : α}

theorem nil : Spread E span c [] c₁ :=
  ⟨fun _ _ _ _ _ ha => by simp at ha, .nil⟩

theorem singleton (h : Within E c a c₁) : Spread E span c [a] c₁ :=
  ⟨fun first last hfirst hlast => List.forall_mem_singleton.2 (h first last hfirst hlast),
    List.pairwise_singleton _ _⟩

/-- What is spread over the text read is some text, unless there is nothing. -/
theorem le (hE : Located source E span)
    (h : Spread E span c as c₁) (hne : as ≠ []) : c.front ≤ c₁.lastEnd := by
  obtain ⟨a, ha⟩ := List.exists_mem_of_ne_nil as hne
  exact Within.le (E := E) (fun first last hfirst hlast => h.each first last hfirst hlast a ha) hE

theorem widen {c' : Cursor} (h : Spread E span c₁ as c₂) (hfront : c.front ≤ c₁.front)
    (hend : c₂.lastEnd ≤ c'.lastEnd) : Spread E span c as c' :=
  ⟨h.each.widen hfront hend, h.ordered⟩

theorem append (hE : Located source E span)
    (h : Spread E span c as c₁) (h' : Spread E span c₁ bs c₂) (h₁ : c.Onward c₁)
    (h₂ : c₁.Onward c₂) : Spread E span c (as ++ bs) c₂ := by
  refine ⟨fun first last hfirst hlast => ?_, ?_⟩
  · exact List.forall_mem_append.2 ⟨h.each first last hfirst (by omega),
      h'.each first last (by omega) hlast⟩
  · rw [List.map_append]
    refine List.pairwise_append.2 ⟨h.ordered, h'.ordered, fun span hspan span' hspan' => ?_⟩
    obtain ⟨a, ha, rfl⟩ := List.mem_map.1 hspan
    obtain ⟨b, hb, rfl⟩ := List.mem_map.1 hspan'
    exact (hE _ _ (h.each _ _ (Nat.le_refl _) (Nat.le_refl _) a ha)).before
      (hE _ _ (h'.each _ _ (Nat.le_refl _) (Nat.le_refl _) b hb)) h₁.2.2

end Spread

namespace Spans

variable {Q R : α → Cursor → Prop}

theorem of_run {r : Report α} {c' : Cursor} (h : p c = (r, c')) (hordered : c'.Ordered source)
    (honward : c.Onward c') (hproblems : r.Within (Diagnostic.Sited source))
    (hvalue : ∀ a, r.result = .ok a → Q a c') : Spans source p c Q := by
  constructor <;> rw [h]
  · exact hordered
  · exact honward
  · exact hproblems
  · exact hvalue

theorem of_ok {a : α} {c' : Cursor} (h : p c = (Pure.pure a, c'))
    (hordered : c'.Ordered source) (honward : c.Onward c') (hvalue : Q a c') :
    Spans source p c Q :=
  of_run h hordered honward (.pure a) fun _ ha => Except.ok.inj ha ▸ hvalue

theorem of_error {d : Diagnostic} {c' : Cursor} (h : p c = (.fail d, c'))
    (hordered : c'.Ordered source) (honward : c.Onward c') (hd : d.Sited source) :
    Spans source p c Q :=
  of_run h hordered honward (.fail hd) fun _ ha => by cases ha

theorem run {r : Report α} {c' : Cursor} (hp : Spans source p c Q) (h : p c = (r, c')) :
    c'.Ordered source ∧ c.Onward c' ∧ r.Within (Diagnostic.Sited source) ∧
      ∀ a, r.result = .ok a → Q a c' := by
  obtain ⟨hordered, honward, hproblems, hvalue⟩ := hp
  rw [h] at hordered honward hproblems hvalue
  exact ⟨hordered, honward, hproblems, hvalue⟩

theorem mono (hp : Spans source p c Q) (h : ∀ a c', Q a c' → R a c') : Spans source p c R :=
  ⟨hp.ordered, hp.onward, hp.problems, fun a ha => h a _ (hp.value a ha)⟩

/-! ## Sequencing -/

theorem pure {a : α} (hc : c.Ordered source) (h : Q a c) : Spans source (pure a) c Q :=
  of_ok rfl hc hc.onward_refl h

theorem bind {q : α → Parser β} {S : β → Cursor → Prop} (hp : Spans source p c Q)
    (hq : ∀ a c₁, c₁.Ordered source → c.Onward c₁ → Q a c₁ → Spans source (q a) c₁ S) :
    Spans source (p >>= q) c S := by
  cases hrun : p c with
  | mk r c₁ =>
    obtain ⟨ds, result⟩ := r
    obtain ⟨hordered, honward, hproblems, hvalue⟩ := hp.run hrun
    cases result with
    | error d =>
      have hbind : (p >>= q) c = (⟨ds, .error d⟩, c₁) := by
        simp [Bind.bind, andThen, hrun]
      exact of_run hbind hordered honward (hproblems.transfer rfl (by simp)) (by simp)
    | ok a =>
      have hbind : (p >>= q) c =
          (⟨ds ++ (q a c₁).1.diagnostics, (q a c₁).1.result⟩, (q a c₁).2) := by
        simp [Bind.bind, andThen, hrun]
      obtain ⟨hordered', honward', hproblems', hvalue'⟩ := hq a c₁ hordered honward (hvalue a rfl)
      exact of_run hbind hordered' (by omega) (hproblems.bind fun _ => hproblems') hvalue'

theorem map {f : α → β} {S : β → Cursor → Prop} (hp : Spans source p c fun a => S (f a)) :
    Spans source (f <$> p) c S :=
  hp.bind fun _ _ hc₁ _ h => .pure hc₁ h

/-- What is made of a value lies where the value does. -/
theorem mapWithin {E : α → Span → Prop} {F : β → Span → Prop} {f : α → β}
    (hp : Spans source p c (Within E c₀)) (hf : ∀ a outer, E a outer → F (f a) outer) :
    Spans source (f <$> p) c (Within F c₀) :=
  .map (hp.mono fun a _ ha first last hfirst hlast => hf a _ (ha first last hfirst hlast))

/-! ## Looking and failing -/

theorem look {f : Cursor → β} {q : β → Parser α} (h : Spans source (q (f c)) c Q) :
    Spans source (look f >>= q) c Q :=
  of_run (r := ⟨(q (f c) c).1.diagnostics, (q (f c) c).1.result⟩) rfl h.ordered h.onward
    h.problems h.value

theorem fail {d : Diagnostic} (hc : c.Ordered source) (hd : d.Sited source) :
    Spans source (fail d) c Q :=
  of_error rfl hc hc.onward_refl hd

theorem failHere {problem : Problem} (hc : c.Ordered source) :
    Spans source (failHere problem) c Q :=
  of_error rfl hc hc.onward_refl (hc.stands.sited problem)

theorem unexpected {expected : String} (hc : c.Ordered source) :
    Spans source (unexpected expected) c Q :=
  of_error rfl hc hc.onward_refl (hc.stands.sited _)

theorem record {ds : List Diagnostic} {q : Unit → Parser α} (hds : ∀ d ∈ ds, d.Sited source)
    (h : Spans source (q ()) c Q) : Spans source (record ds >>= q) c Q :=
  have hnoted : (Report.noted ((), ds)).Within (Diagnostic.Sited source) := .noted hds
  of_run (r := ⟨ds ++ (q () c).1.diagnostics, (q () c).1.result⟩) rfl h.ordered h.onward
    (hnoted.bind fun _ => h.problems) h.value

/-! ## Reading -/

theorem advance (hc : c.Ordered source) : Spans source advance c fun tok _ => tok = c.current :=
  of_ok rfl hc.advance.1 hc.advance.2 rfl

/-- At a token of the text, reading starts where the token does and goes past it. -/
theorem keyword {q : Lexeme → Parser α} (hc : c.Ordered source) (ht : c.token.hasText = true)
    (hq : ∀ c₁, c₁.Ordered source → c.Onward c₁ → c.front < c₁.lastEnd →
      Spans source (q c.current) c₁ Q) : Spans source (Parser.advance >>= q) c Q := by
  have hread : Spans source Parser.advance c fun tok c' => tok = c.current ∧ c.front < c'.lastEnd :=
    of_ok rfl hc.advance.1 hc.advance.2 ⟨rfl, (hc.lastEnd_advance ht).2⟩
  refine hread.bind fun tok c₁ hc₁ h₁ hlt => ?_
  obtain ⟨rfl, hlt⟩ := hlt
  exact hq c₁ hc₁ h₁ hlt

theorem eat (hc : c.Ordered source) : Spans source (eat t) c fun _ _ => True := by
  by_cases h : c.isAt t = true
  · have hrun : Parser.eat t c = (Pure.pure true, c.advance) := by
      simp [Parser.eat, Cursor.eat?, h]
    exact of_ok hrun hc.advance.1 hc.advance.2 trivial
  · have hrun : Parser.eat t c = (Pure.pure false, c) := by
      simp [Parser.eat, Cursor.eat?, h]
    exact of_ok hrun hc hc.onward_refl trivial

theorem expect {context : String} (hc : c.Ordered source) :
    Spans source (expect t context) c fun _ c' => t.hasText = true → c.front < c'.lastEnd := by
  by_cases h : c.isAt t = true
  · have hrun : Parser.expect t context c = (Pure.pure (), c.advance) := by
      simp [Parser.expect, Cursor.expect, Cursor.eat?, h]
    refine of_ok hrun hc.advance.1 hc.advance.2 fun ht => ?_
    exact (hc.lastEnd_advance (hasText_of_isAt h ht)).2
  · have hrun : Parser.expect t context c = (.fail (c.unexpected s!"`{t.text}` {context}"), c) := by
      simp [Parser.expect, Cursor.expect, Cursor.eat?, h]
    exact of_error hrun hc hc.onward_refl (hc.stands.sited _)

theorem optional (hc : c.Ordered source)
    (hp : ∀ c₁, c₁.Ordered source → c.Onward c₁ → Spans source p c₁ Q) :
    Spans source (optional t p) c fun o c' => ∀ a ∈ o, Q a c' := by
  refine (eat hc).bind fun read c₁ hc₁ h₁ _ => ?_
  cases read with
  | false => exact .pure hc₁ fun a ha => by simp at ha
  | true =>
    refine Spans.map ((hp c₁ hc₁ h₁).mono fun a c₂ ha b hb => ?_)
    obtain rfl := Option.some.inj hb
    exact ha

/-! ## Spans -/

/-- The current token as a span. -/
theorem lies_current (hc : c.Ordered source) (ht : c.token.hasText = true) :
    Within (fun span outer => span.Lies source outer) c c.current.span c.advance := by
  intro first last hfirst hlast
  have hend := (hc.lastEnd_advance ht).1
  exact Span.lies_of hc.stands.start hc.stands.stop hc.stands.le hfirst (hend ▸ hlast)

/-- A node that is no more than one token. -/
theorem token {E : α → Span → Prop} {make : Lexeme → α} (hc : c.Ordered source)
    (ht : c.token.hasText = true)
    (h : ∀ outer, c.current.span.Lies source outer → E (make c.current) outer) :
    Spans source (do return make (← Parser.advance)) c (Within E c) := by
  refine of_ok rfl hc.advance.1 hc.advance.2 fun first last hfirst hlast => ?_
  exact h _ (lies_current hc ht first last hfirst hlast)

/-- A node spans the text that was read for it. Its parts are in that span. -/
theorem node {E : α → Span → Prop} {make : Span → α} (hc₀ : c₀.Ordered source)
    (hc : c.Ordered source) (hle : c₀.front ≤ c.lastEnd)
    (h : ∀ outer, Span.Lies source ⟨c₀.front, c.lastEnd⟩ outer →
      E (make ⟨c₀.front, c.lastEnd⟩) outer) :
    Spans source (do return make (← spanFrom c₀.front)) c (Within E c₀) := by
  refine Spans.look (.pure hc fun first last hfirst hlast => ?_)
  have hspan : c.spanFrom c₀.front = ⟨c₀.front, c.lastEnd⟩ := by
    rw [Cursor.spanFrom, Nat.max_eq_left hle]
  rw [hspan]
  exact h _ (Span.lies_of hc₀.stands.start hc.read hle hfirst hlast)

/-! ## Repetition -/

section

variable {E : α → Span → Prop} {R : α → α → Prop} {next : Option α → Cursor → Bool}
  {last : Option α}

/-- What the rounds of a repetition give lies in the text read, one after another. -/
theorem whileFrom (hR : ∀ {a b s s'}, E a s → E b s' → s.stop ≤ s'.start → R a b)
    (hp : ∀ last c, c.Ordered source → next last c = true → Spans source p c (Within E c))
    (hc : c.Ordered source) : Spans source (whileFrom next p last) c fun as c' =>
      Within (fun as outer => ∀ a ∈ as, E a outer) c as c' ∧ as.Pairwise R := by
  induction hn : c.ahead.length using Nat.strongRecOn generalizing last c with
  | _ n ih =>
    subst hn
    cases hnext : next last c with
    | false =>
      exact of_ok (whileFrom_stop hnext) hc hc.onward_refl ⟨fun _ _ _ _ _ ha => by simp at ha, .nil⟩
    | true =>
      cases hround : p c with
      | mk r c₁ =>
        obtain ⟨ds, result⟩ := r
        obtain ⟨hordered, honward, hproblems, hvalue⟩ := (hp last c hc hnext).run hround
        cases result with
        | error d =>
          exact of_run (whileFrom_error hnext hround) hordered honward
            (hproblems.transfer rfl (by simp)) (by simp)
        | ok a =>
          have ha := hvalue a rfl
          by_cases hlt : c₁.ahead.length < c.ahead.length
          · have hrun := whileFrom_round hnext hround hlt
            obtain ⟨hordered', honward', hproblems', hvalue'⟩ := @ih _ hlt c₁ (some a) hordered rfl
            have hothers : (⟨(Parser.whileFrom next p (some a) c₁).1.diagnostics,
                (Parser.whileFrom next p (some a) c₁).1.result.map (a :: ·)⟩ :
                  Report (List α)).Within (Diagnostic.Sited source) := by
              refine hproblems'.transfer rfl fun d hd => ?_
              cases hrest : (Parser.whileFrom next p (some a) c₁).1.result <;>
                simp_all [Except.map]
            refine of_run hrun hordered' (by omega) (hproblems.bind fun _ => hothers)
              fun as has => ?_
            cases hrest : (Parser.whileFrom next p (some a) c₁).1.result with
            | error d => simp [hrest, Except.map] at has
            | ok others =>
              obtain rfl : a :: others = as := by simpa [hrest, Except.map] using has
              obtain ⟨hothers, hpairs⟩ := hvalue' others hrest
              refine ⟨fun first last hfirst hlast => ?_, .cons (fun b hb => ?_) hpairs⟩
              · exact List.forall_mem_cons.2 ⟨ha first last hfirst (by omega),
                  hothers first last (by omega) hlast⟩
              · exact hR (ha _ _ (Nat.le_refl _) (Nat.le_refl _))
                  (hothers _ _ (Nat.le_refl _) (Nat.le_refl _) b hb) honward.2.2
          · refine of_run (whileFrom_idle hnext hround hlt) hordered honward
              ⟨hproblems.recorded, by simp⟩ fun as has => ?_
            obtain rfl := Except.ok.inj has
            refine ⟨fun first last hfirst hlast => ?_, List.pairwise_singleton _ _⟩
            exact List.forall_mem_singleton.2 (ha first last hfirst hlast)

/-- An item that is left out moves the cursor all the same. -/
theorem item (hp : Spans source p c (Within E c)) :
    Spans source (item p) c (Within (fun o outer => ∀ a ∈ o, E a outer) c) := by
  cases hrun : p c with
  | mk r c₁ =>
    obtain ⟨ds, result⟩ := r
    obtain ⟨hordered, honward, hproblems, hvalue⟩ := hp.run hrun
    obtain ⟨hskip, hskipped⟩ : c₁.skipItem.Ordered source ∧ c₁.Onward c₁.skipItem :=
      hordered.skip _
    cases result with
    | error d =>
      have hitem : Parser.item p c = (⟨ds ++ [d], .ok none⟩, c₁.skipItem) := by
        simp [Parser.item, hrun]
      refine of_run hitem hskip (by omega) ⟨hproblems.settle, by simp⟩ ?_
      rintro _ ⟨⟩ _ _ _ _ _ ⟨⟩
    | ok a =>
      have ha : Within (fun o outer => ∀ a ∈ o, E a outer) c (some a) c₁ := by
        intro first last hfirst hlast b hb
        obtain rfl := Option.some.inj hb
        exact hvalue a rfl first last hfirst hlast
      by_cases hend : atItemEnd c₁ = true
      · have hitem : Parser.item p c = (⟨ds, .ok (some a)⟩, c₁) := by
          simp [Parser.item, hrun, hend]
        refine of_run hitem hordered honward ⟨hproblems.recorded, by simp⟩ ?_
        rintro _ ⟨⟩
        exact ha
      · have hitem : Parser.item p c =
            (⟨ds ++ [c₁.unexpected "the end of the declaration"], .ok (some a)⟩, c₁.skipItem) := by
          simp [Parser.item, hrun, hend]
        have hstray := List.forall_mem_singleton.2 (hordered.stands.sited
          (.unexpected "the end of the declaration" c₁.token))
        refine of_run hitem hskip (by omega)
          ⟨List.forall_mem_append.2 ⟨hproblems.recorded, hstray⟩, by simp⟩ ?_
        rintro _ ⟨⟩
        exact ha.widen (Nat.le_refl _) hskipped.1

variable {span : α → Span}

/-- Rounds that give what has a span. -/
theorem sequenceFrom (hE : Located source E span)
    (hp : ∀ last c, c.Ordered source → next last c = true → Spans source p c (Within E c))
    (hc : c.Ordered source) : Spans source (Parser.whileFrom next p last) c (Spread E span c) := by
  refine (whileFrom (R := fun a b => (span a).stop ≤ (span b).start) ?_ hp hc).mono
    fun as c' h => ?_
  · exact fun ha hb hle => (hE _ _ ha).before (hE _ _ hb) hle
  · exact ⟨h.1, List.pairwise_map.2 h.2⟩

theorem sequence {more : Cursor → Bool} (hE : Located source E span)
    (hp : ∀ c, c.Ordered source → more c = true → Spans source p c (Within E c))
    (hc : c.Ordered source) : Spans source (whileAt more p) c (Spread E span c) :=
  sequenceFrom hE (fun _ => hp) hc

/-- Separators before what comes next are read over. -/
theorem skipSeparators {q : Unit → Parser β} {S : β → Cursor → Prop} (hc : c.Ordered source)
    (hq : ∀ c₁, c₁.Ordered source → c.Onward c₁ → Spans source (q ()) c₁ S) :
    Spans source (move Cursor.skipSeparators >>= q) c S := by
  obtain ⟨hskip, hskipped⟩ : c.skipSeparators.Ordered source ∧ c.Onward c.skipSeparators :=
    hc.skip _
  have hmove : Spans source (move Cursor.skipSeparators) c fun _ _ => True :=
    of_ok rfl hskip hskipped trivial
  exact hmove.bind fun _ c₁ hc₁ h₁ _ => hq c₁ hc₁ h₁

/-- The items of a block that parse lie in it one after another. -/
theorem block (hE : Located source E span)
    (hp : ∀ c, c.Ordered source → Spans source p c (Within E c)) (hc : c.Ordered source) :
    Spans source (block p) c (Spread E span c) := by
  have hround : ∀ c, c.Ordered source → moreItems c = true →
      Spans source (do move Cursor.skipSeparators; Parser.item p) c
        (Within (fun o outer => ∀ a ∈ o, E a outer) c) := by
    intro c hc _
    refine skipSeparators hc fun c₁ hc₁ h₁ => ?_
    exact (item (hp c₁ hc₁)).mono fun o c₂ ho => ho.widen h₁.2.1 (Nat.le_refl _)
  refine (expect hc).bind fun _ c₁ hc₁ h₁ _ => ?_
  refine (whileFrom (R := fun o o' => ∀ a ∈ o, ∀ b ∈ o', (span a).stop ≤ (span b).start) ?_
    (fun _ => hround) hc₁).bind fun items c₂ hc₂ h₂ hitems => ?_
  · exact fun ho ho' hle a ha b hb => (hE _ _ (ho a ha)).before (hE _ _ (ho' b hb)) hle
  · refine skipSeparators hc₂ fun c₃ hc₃ h₃ => ?_
    refine (eat hc₃).bind fun closed c₄ hc₄ h₄ _ => ?_
    cases closed with
    | false => exact .unexpected hc₄
    | true =>
      refine .pure hc₄ ⟨fun first last hfirst hlast a ha => ?_, ?_⟩
      · obtain ⟨o, ho, rfl⟩ := List.mem_filterMap.1 ha
        exact hitems.1 first last (by omega) (by omega) _ ho a rfl
      · exact List.pairwise_map.2 (List.pairwise_filterMap.2 hitems.2)

end

/-! ## Names -/

section

variable {expected : String}

/-- A name is the current token. -/
theorem nameHere (hc : c.Ordered source) : Spans source (name expected) c fun n c' =>
    n.span = c.current.span ∧ Within (Name.Lies source) c n c' := by
  cases ht : c.token with
  | ident text =>
    have hrun : Parser.name expected c = (Pure.pure ⟨text, c.current.span⟩, c.advance) := by
      simp only [Parser.name, ht]
    exact of_ok hrun hc.advance.1 hc.advance.2 ⟨rfl, lies_current hc (by rw [ht]; rfl)⟩
  | _ =>
    have hrun : Parser.name expected c = (.fail (c.unexpected expected), c) := by
      simp only [Parser.name, ht]
    exact of_error hrun hc hc.onward_refl (hc.stands.sited _)

theorem name (hc : c.Ordered source) :
    Spans source (Parser.name expected) c (Within (Name.Lies source) c) :=
  (nameHere hc).mono fun _ _ h => h.2

theorem names (hc : c.Ordered source) :
    Spans source (names expected) c (Spread (Name.Lies source) Name.span c) := by
  refine (name hc).bind fun n c₁ hc₁ h₁ hn => ?_
  refine (sequence Name.located (fun c hc _ => name hc) hc₁).bind fun ns c₂ hc₂ h₂ hns => ?_
  exact .pure hc₂ (.append Name.located (.singleton hn) hns h₁ h₂)

/-- The segments of a name stand one after another, so the first and the last
one delimit it. -/
theorem lies_qualified {outer : Span} {n : Name} {ns : List Name}
    (heach : ∀ m ∈ n :: ns, m.Lies source outer)
    (hordered : Span.Ordered ((n :: ns).map Name.span)) :
    QualifiedName.Lies source
      ⟨⟨n.span.start, ((n :: ns).getLast?.getD n).span.stop⟩, n :: ns⟩ outer := by
  obtain ⟨init, last, hsplit⟩ : ∃ init last, n :: ns = init ++ [last] :=
    ⟨_, _, (List.dropLast_append_getLast (List.cons_ne_nil n ns)).symm⟩
  have hlast : ((n :: ns).getLast?.getD n) = last := by
    rw [hsplit, List.getLast?_concat]
    rfl
  have hmem : last ∈ n :: ns := by simp [hsplit]
  have hstart : ∀ m ∈ n :: ns, n.span.start ≤ m.span.start := by
    intro m hm
    rcases List.mem_cons.1 hm with rfl | hm
    · exact Nat.le_refl _
    · have hle := (heach n List.mem_cons_self).le
      have hbefore := (List.pairwise_cons.1 hordered).1 m.span (List.mem_map_of_mem hm)
      omega
  have hstop : ∀ m ∈ n :: ns, m.span.stop ≤ last.span.stop := by
    intro m hm
    rw [hsplit] at hm hordered
    rcases List.mem_append.1 hm with hm | hm
    · rw [List.map_append] at hordered
      have hle := (heach last hmem).le
      have hbefore := (List.pairwise_append.1 hordered).2.2 m.span (List.mem_map_of_mem hm)
        last.span (by simp)
      omega
    · obtain rfl := List.mem_singleton.1 hm
      exact Nat.le_refl _
  have hfirst := heach n List.mem_cons_self
  rw [hlast]
  refine ⟨Span.lies_of hfirst.start (heach last hmem).stop ?_
    (Span.contains_iff.1 hfirst.inside).1 (Span.contains_iff.1 (heach last hmem).inside).2, ?_⟩
  · exact Nat.le_trans hfirst.le (hstop n List.mem_cons_self)
  · intro m hm
    have hlies := heach m hm
    exact Span.lies_of hlies.start hlies.stop hlies.le (hstart m hm) (hstop m hm)

theorem qualifiedName (hc : c.Ordered source) :
    Spans source (qualifiedName expected) c (Within (QualifiedName.Lies source) c) := by
  refine (name hc).bind fun n c₁ hc₁ h₁ hn => ?_
  have hround : ∀ (last : Option Name) c, c.Ordered source →
      atSegment (last.getD n).span.stop c = true → Spans source (do
        let _ ← Parser.advance
        Parser.name "a name after `.`") c (Within (Name.Lies source) c) := by
    intro last c hc _
    refine (advance hc).bind fun _ c₁ hc₁ h₁ _ => ?_
    exact (name hc₁).mono fun n c₂ hn => hn.widen h₁.2.1 (Nat.le_refl _)
  refine (sequenceFrom Name.located hround hc₁).bind fun ns c₂ hc₂ h₂ hns => ?_
  have hall : Spread _ _ c (n :: ns) c₂ := .append Name.located (.singleton hn) hns h₁ h₂
  exact .pure hc₂ fun first last hfirst hlast =>
    lies_qualified (hall.each first last hfirst hlast) hall.ordered

end

end Spans

end Parser

end Offside
