-- SUMMARY: Parses that succeed without a problem, and how each parser combinator takes part in one.
import Mathlib.Data.List.Basic
import Offside.Parser.Decl

/-! # Accepting parses

`Parser.Accepts p c a c'` says that `p`, started at `c`, gives `a`, stops at
`c'`, and records nothing. Every combinator has one lemma that says exactly when
it accepts. The theories of what the grammar reads and of what it has read are
both built from these, and no proof after this module opens a combinator. -/

namespace Offside

/-! ## Cursors as lists of tokens -/

namespace Cursor

variable {c : Cursor}

/-- The tokens ahead, without their places and without the final end of file. -/
def tokens (c : Cursor) : List Token := c.ahead.map (·.token)

@[simp] theorem ahead_skip (c : Cursor) (n : Nat) : (c.skip n).ahead = c.ahead.drop n := rfl

@[simp] theorem eof_skip (c : Cursor) (n : Nat) : (c.skip n).eof = c.eof := rfl

@[simp] theorem lastEnd_skip (c : Cursor) (n : Nat) :
    (c.skip n).lastEnd = readEnd c.lastEnd (c.ahead.take n) := rfl

@[simp] theorem tokens_skip (c : Cursor) (n : Nat) : (c.skip n).tokens = c.tokens.drop n := by
  simp [tokens, List.map_drop]

@[simp] theorem skip_zero (c : Cursor) : c.skip 0 = c := by
  simp [skip, readEnd]

theorem skip_skip (c : Cursor) (m n : Nat) : (c.skip m).skip n = c.skip (m + n) := by
  have hend : readEnd (readEnd c.lastEnd (c.ahead.take m)) ((c.ahead.drop m).take n) =
      readEnd c.lastEnd (c.ahead.take (m + n)) := by
    rw [List.take_add, readEnd, readEnd, readEnd, List.foldl_append]
  simp only [skip, List.drop_drop, hend]

theorem token_eq_of_ahead {tok : Lexeme} {toks : List Lexeme} (h : c.ahead = tok :: toks) :
    c.current = tok := by
  simp [current, peekAt, h]

/-- At the end of the stream the current token is the final end of file. -/
theorem current_of_ahead_nil (h : c.ahead = []) : c.current = c.eof := by
  simp [current, peekAt, h]

/-- The current token is the first one ahead, or the end of file. -/
theorem token_eq (h : c.eof.token = .eof) : c.token = c.tokens.head?.getD .eof := by
  cases hc : c.ahead with
  | nil => simp [token, tokens, current_of_ahead_nil hc, hc, h]
  | cons tok toks => simp [token, tokens, token_eq_of_ahead hc, hc]

/-- A cursor that does not stand at an end of file has a token ahead. -/
theorem ahead_eq_cons (heof : c.eof.token = .eof) (h : c.token ≠ .eof) :
    c.ahead = c.current :: c.ahead.drop 1 := by
  cases hc : c.ahead with
  | nil => simp [token, current_of_ahead_nil hc, heof] at h
  | cons tok toks => simp [token_eq_of_ahead hc]

theorem advance_eq_skip (h : c.token ≠ .eof) : c.advance = c.skip 1 := by
  simp [advance, isAt, h]

end Cursor

/-! ## First tokens -/

namespace Token

/-- May stand first in an atom. -/
def startsAtom : Token → Bool
  | .ident _ | .underscore | .unit | .kwType | .integer _ | .lparen | .lbrace | .kwRecord => true
  | _ => false

/-- May stand first in a form that extends as far right as it can. -/
def startsTail : Token → Bool
  | .backslash | .kwForall | .kwLet => true
  | _ => false

/-- Stands in the text. -/
def hasText (t : Token) : Bool := !t.isVirtual && t ≠ .eof

theorem startsAtom_of_startsTail {t : Token} (h : t.startsTail = true) : t.startsAtom = false := by
  cases t <;> first | rfl | cases h

end Token

namespace Parser

theorem atAtom_eq (c : Cursor) : atAtom c = c.token.startsAtom := rfl

theorem atTail_eq (c : Cursor) : atTail c = c.token.startsTail := rfl

variable {α β : Type} {p : Parser α} {c c' c₁ c₂ : Cursor} {a : α}

theorem token_of_isAt {t : Token} (h : c.isAt t = true) : c.token = t := of_decide_eq_true h

theorem hasText_of_isAt {t : Token} (h : c.isAt t = true) (ht : t.hasText = true) :
    c.token.hasText = true := by
  rwa [token_of_isAt h]

theorem hasText_of_atBracket (h : atBracket c = true) : c.token.hasText = true := by
  rcases Bool.or_eq_true_iff.1 h with h | h <;> exact hasText_of_isAt h rfl

/-- `p` gives `a`, stops at `c'`, and records no problem. -/
def Accepts (p : Parser α) (c : Cursor) (a : α) (c' : Cursor) : Prop :=
  p c = (⟨[], .ok a⟩, c')

/-! ## Sequencing -/

theorem accepts_bind_iff {q : α → Parser β} {b : β} :
    (p >>= q).Accepts c b c' ↔ ∃ a c₁, p.Accepts c a c₁ ∧ (q a).Accepts c₁ b c' := by
  simp only [Accepts, bind, andThen]
  cases hp : p c with
  | mk r c₁ =>
    obtain ⟨ds, result⟩ := r
    cases result with
    | error d => simp
    | ok a =>
      cases hq : q a c₁ with
      | mk r₂ c₂ =>
        obtain ⟨ds₂, result₂⟩ := r₂
        constructor
        · intro h
          simp only [hq, Prod.mk.injEq, Report.mk.injEq, List.append_eq_nil_iff] at h
          obtain ⟨⟨⟨rfl, rfl⟩, rfl⟩, rfl⟩ := h
          exact ⟨a, c₁, rfl, hq⟩
        · rintro ⟨a', c₁', h, hq'⟩
          simp only [Prod.mk.injEq, Report.mk.injEq, Except.ok.injEq] at h
          obtain ⟨⟨rfl, rfl⟩, rfl⟩ := h
          rw [hq] at hq'
          simp_all

@[simp] theorem accepts_pure_iff {b : α} :
    (pure b : Parser α).Accepts c a c' ↔ b = a ∧ c = c' := by
  simp [Accepts, pure]

theorem accepts_map_iff {f : α → β} {b : β} :
    (f <$> p).Accepts c b c' ↔ ∃ a, p.Accepts c a c' ∧ f a = b := by
  change (p >>= fun a => pure (f a)).Accepts c b c' ↔ _
  simp only [accepts_bind_iff, accepts_pure_iff]
  constructor
  · rintro ⟨a, c₁, h, rfl, rfl⟩
    exact ⟨a, h, rfl⟩
  · rintro ⟨a, h, rfl⟩
    exact ⟨a, c', h, rfl, rfl⟩

/-! ## Looking, failing and moving -/

@[simp] theorem accepts_look_iff {f : Cursor → α} :
    (look f).Accepts c a c' ↔ f c = a ∧ c = c' := by
  simp [Accepts, look, pure]

@[simp] theorem accepts_start_iff {n : Nat} :
    start.Accepts c n c' ↔ c.current.span.start = n ∧ c = c' := accepts_look_iff

@[simp] theorem accepts_spanFrom_iff {n : Nat} {span : Span} :
    (spanFrom n).Accepts c span c' ↔ c.spanFrom n = span ∧ c = c' := accepts_look_iff

@[simp] theorem not_accepts_fail {d : Diagnostic} : ¬ (fail d : Parser α).Accepts c a c' := by
  simp [Accepts, fail, Report.fail]

@[simp] theorem not_accepts_failHere {problem : Problem} :
    ¬ (failHere problem : Parser α).Accepts c a c' := by
  simp [Accepts, failHere, Report.fail]

@[simp] theorem not_accepts_unexpected {expected : String} :
    ¬ (unexpected expected : Parser α).Accepts c a c' := by
  simp [Accepts, unexpected, Report.fail]

@[simp] theorem accepts_record_iff {ds : List Diagnostic} {u : Unit} :
    (record ds).Accepts c u c' ↔ ds = [] ∧ c = c' := by
  simp [Accepts, record, Report.noted]

@[simp] theorem accepts_move_iff {f : Cursor → Cursor} {u : Unit} :
    (move f).Accepts c u c' ↔ f c = c' := by
  simp [Accepts, move, pure]

@[simp] theorem accepts_advance_iff {tok : Lexeme} :
    advance.Accepts c tok c' ↔ c.current = tok ∧ c.advance = c' := by
  simp [Accepts, advance, pure]

theorem accepts_eat_iff {t : Token} {b : Bool} :
    (eat t).Accepts c b c' ↔
      (c.token = t ∧ b = true ∧ c.advance = c') ∨ (c.token ≠ t ∧ b = false ∧ c = c') := by
  by_cases h : c.token = t
  · simp [Accepts, eat, Cursor.eat?, Cursor.isAt, h, pure, eq_comm]
  · simp [Accepts, eat, Cursor.eat?, Cursor.isAt, h, pure, eq_comm]

theorem accepts_expect_iff {t : Token} {context : String} {u : Unit} :
    (expect t context).Accepts c u c' ↔ c.token = t ∧ c.advance = c' := by
  by_cases h : c.token = t
  · simp [Accepts, expect, Cursor.expect, Cursor.eat?, Cursor.isAt, h, pure]
  · simp [Accepts, expect, Cursor.expect, Cursor.eat?, Cursor.isAt, h, Report.fail]

theorem accepts_optional_iff {t : Token} {o : Option α} :
    (optional t p).Accepts c o c' ↔
      (c.token = t ∧ ∃ a, p.Accepts c.advance a c' ∧ o = some a) ∨
        (c.token ≠ t ∧ o = none ∧ c = c') := by
  simp only [optional, accepts_bind_iff, accepts_eat_iff]
  constructor
  · rintro ⟨b, c₁, ⟨ht, rfl, rfl⟩ | ⟨ht, rfl, rfl⟩, h⟩
    · obtain ⟨a, ha, rfl⟩ := accepts_map_iff.1 h
      exact .inl ⟨ht, a, ha, rfl⟩
    · obtain ⟨rfl, rfl⟩ := accepts_pure_iff.1 h
      exact .inr ⟨ht, rfl, rfl⟩
  · rintro (⟨ht, a, ha, rfl⟩ | ⟨ht, rfl, rfl⟩)
    · exact ⟨true, _, .inl ⟨ht, rfl, rfl⟩, accepts_map_iff.2 ⟨a, ha, rfl⟩⟩
    · exact ⟨false, c, .inr ⟨ht, rfl, rfl⟩, accepts_pure_iff.2 ⟨rfl, rfl⟩⟩

theorem accepts_name_iff {expected : String} {n : Name} :
    (name expected).Accepts c n c' ↔
      ∃ text, c.token = .ident text ∧ n = ⟨text, c.current.span⟩ ∧ c.advance = c' := by
  cases h : c.token <;> simp [Accepts, name, h, Report.fail, pure, eq_comm]

/-! ## Repetition -/

section

variable {next : Option α → Cursor → Bool} {last : Option α} {more : Cursor → Bool} {as : List α}

theorem accepts_whileFrom_stop (h : next last c = false) :
    Accepts (whileFrom next p last) c [] c :=
  whileFrom_stop h

theorem accepts_whileFrom_cons (hnext : next last c = true) (ha : p.Accepts c a c₁)
    (hlt : c₁.ahead.length < c.ahead.length)
    (has : Accepts (whileFrom next p (some a)) c₁ as c₂) :
    Accepts (whileFrom next p last) c (a :: as) c₂ := by
  rw [Accepts] at ha has ⊢
  rw [whileFrom_round hnext ha hlt, has]
  rfl

/-- What holds of the rounds of a repetition, one after another, holds of the
whole of it. -/
theorem accepts_whileFrom_induct {motive : Option α → Cursor → List α → Cursor → Prop}
    (stop : ∀ last c, next last c = false → motive last c [] c)
    (round : ∀ last c a c₁ as c₂, next last c = true → p.Accepts c a c₁ →
      c₁.ahead.length < c.ahead.length → motive (some a) c₁ as c₂ → motive last c (a :: as) c₂)
    (stuck : ∀ last c a c₁, next last c = true → p.Accepts c a c₁ →
      ¬ c₁.ahead.length < c.ahead.length → motive last c [a] c₁)
    (h : Accepts (whileFrom next p last) c as c') : motive last c as c' := by
  induction hn : c.ahead.length using Nat.strongRecOn generalizing c last as with
  | _ n ih =>
    subst hn
    rw [Accepts, whileFrom] at h
    split at h
    · rename_i hnext
      split at h
      · simp at h
      · rename_i ds a c₁ hp
        split at h
        · rename_i hlt
          simp only [Prod.mk.injEq, Report.mk.injEq, List.append_eq_nil_iff] at h
          obtain ⟨⟨⟨rfl, hds⟩, hresult⟩, hc'⟩ := h
          cases hrest : whileFrom next p (some a) c₁ with
          | mk r c₂ =>
            obtain ⟨ds₂, result⟩ := r
            rw [hrest] at hds hresult hc'
            cases result with
            | error d => simp [Except.map] at hresult
            | ok as' =>
              simp only [Except.map, Except.ok.injEq] at hds hresult hc'
              subst hds hresult hc'
              exact round last c a c₁ as' c₂ hnext hp hlt (ih _ hlt hrest rfl)
        · rename_i hlt
          simp only [Prod.mk.injEq, Report.mk.injEq, Except.ok.injEq] at h
          obtain ⟨⟨rfl, rfl⟩, rfl⟩ := h
          exact stuck last c a c₁ hnext hp hlt
    · rename_i hnext
      obtain ⟨rfl, rfl⟩ : [] = as ∧ c = c' := by simpa [pure] using h
      exact stop last c (by simpa using hnext)

theorem accepts_whileAt_stop (h : more c = false) : Accepts (whileAt more p) c [] c :=
  accepts_whileFrom_stop h

theorem accepts_whileAt_cons (hmore : more c = true) (ha : p.Accepts c a c₁)
    (hlt : c₁.ahead.length < c.ahead.length) (has : Accepts (whileAt more p) c₁ as c₂) :
    Accepts (whileAt more p) c (a :: as) c₂ :=
  accepts_whileFrom_cons hmore ha hlt (by rwa [whileFrom_const])

theorem accepts_whileAt_induct {motive : Cursor → List α → Cursor → Prop}
    (stop : ∀ c, more c = false → motive c [] c)
    (round : ∀ c a c₁ as c₂, more c = true → p.Accepts c a c₁ →
      c₁.ahead.length < c.ahead.length → motive c₁ as c₂ → motive c (a :: as) c₂)
    (stuck : ∀ c a c₁, more c = true → p.Accepts c a c₁ →
      ¬ c₁.ahead.length < c.ahead.length → motive c [a] c₁)
    (h : Accepts (whileAt more p) c as c') : motive c as c' :=
  accepts_whileFrom_induct (motive := fun _ => motive) (fun _ => stop) (fun _ => round)
    (fun _ => stuck) h

end

/-! ## Items and blocks -/

theorem accepts_item_iff {o : Option α} :
    (item p).Accepts c o c' ↔ ∃ a, p.Accepts c a c' ∧ atItemEnd c' = true ∧ o = some a := by
  simp only [Accepts, item]
  cases hp : p c with
  | mk r c₁ =>
    obtain ⟨ds, result⟩ := r
    cases result with
    | error d => simp
    | ok a =>
      by_cases hend : atItemEnd c₁ = true
      · simp only [hend, if_true]
        constructor
        · intro h
          simp only [Prod.mk.injEq, Report.mk.injEq, Except.ok.injEq] at h
          obtain ⟨⟨rfl, rfl⟩, rfl⟩ := h
          exact ⟨a, rfl, hend, rfl⟩
        · rintro ⟨a', h, -, rfl⟩
          simp only [Prod.mk.injEq, Report.mk.injEq, Except.ok.injEq] at h
          obtain ⟨⟨rfl, rfl⟩, rfl⟩ := h
          rfl
      · simp only [hend, Bool.false_eq_true, if_false]
        constructor
        · intro h
          simp at h
        · rintro ⟨a', h, hend', -⟩
          simp only [Prod.mk.injEq] at h
          exact absurd (h.2 ▸ hend') hend

/-- A block is its opening marker, its items, each after any separators, and
its closing marker, again after any separators. -/
theorem accepts_block_iff {as : List α} :
    (block p).Accepts c as c' ↔ c.token = .blockStart ∧ ∃ items c₁,
      Accepts (whileAt moreItems (do move Cursor.skipSeparators; item p)) c.advance items c₁ ∧
        c₁.skipSeparators.token = .blockEnd ∧ c₁.skipSeparators.advance = c' ∧
        items.filterMap id = as := by
  simp only [block, accepts_bind_iff, accepts_expect_iff, accepts_move_iff, accepts_eat_iff]
  constructor
  · rintro ⟨-, -, ⟨hstart, rfl⟩, items, c₁, hitems, -, -, rfl, b, c₂, hb, hrest⟩
    rcases hb with ⟨hend, rfl, rfl⟩ | ⟨-, rfl, rfl⟩
    · obtain ⟨rfl, rfl⟩ := accepts_pure_iff.1 hrest
      exact ⟨hstart, items, c₁, hitems, hend, rfl, rfl⟩
    · simp at hrest
  · rintro ⟨hstart, items, c₁, hitems, hend, rfl, rfl⟩
    exact ⟨(), _, ⟨hstart, rfl⟩, items, c₁, hitems, (), _, rfl, true, _, .inl ⟨hend, rfl, rfl⟩,
      accepts_pure_iff.2 ⟨rfl, rfl⟩⟩

end Parser

end Offside
