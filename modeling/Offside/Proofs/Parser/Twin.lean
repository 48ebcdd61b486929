-- SUMMARY: Two runs of a parser over the same tokens of an item with different text behind it, side by side.
import Mathlib.Data.List.Forall2
import Offside.Proofs.Layout.Segments
import Offside.Proofs.Parser.Accepts

/-! # Parsers side by side

Two cursors are twins if the same tokens of a segment are ahead of both, and
behind these a separator or the end of the block, though not the same one.
`Agrees` says that a parser does the same at both: it gives the same value, or
stops for the same reason, and stands before the same tokens again. Every
combinator has one lemma for it. -/

namespace Offside

/-! ## Diagnostics that show the same -/

/-- What is shown of a problem: code, message and place. -/
def Diagnostic.shown (d : Diagnostic) : String × String × Span := (d.code, d.message, d.span)

/-- Whether a block was found without an end. -/
def Problem.missesBlockEnd : Problem → Bool
  | .unexpected expected _ => expected = "the end of the block"
  | _ => false

/-- Two problems that are shown in the same way, neither of them a block without
an end. -/
structure Diagnostic.Alike (d d' : Diagnostic) : Prop where
  shown : d.shown = d'.shown
  ended : d.problem.missesBlockEnd = false

theorem Diagnostic.Alike.of_problem {problem : Problem} {span span' : Span} (hspan : span = span')
    (h : problem.missesBlockEnd = false) : (problem.at span).Alike (problem.at span') := by
  subst hspan
  exact ⟨rfl, h⟩

/-! ## Twin cursors -/

/-- A lexeme before the end of file. What is no marker has a width. -/
structure Lexeme.IsProper (tok : Lexeme) : Prop where
  ne_eof : tok.token ≠ .eof
  width : tok.token.isVirtual = false → tok.span.isEmpty = false

/-- What may be behind a segment in two streams: separators or block ends at the
same place. -/
structure Boundary (b b' : List Lexeme) : Prop where
  exists_eq : ∃ x r x' r', b = x :: r ∧ b' = x' :: r' ∧ x.token.endsSegment = true ∧
    x'.token.endsSegment = true ∧ x.span = x'.span

/-- Tokens of a segment with `b` behind them in one stream and `b'` in another. -/
structure Shared (b b' toks : List Lexeme) : Prop where
  closes : blocksClose false 0 toks = true
  proper : ∀ tok ∈ toks, tok.IsProper
  scans : ∀ toks', toks' <:+ toks → ScansAlike 0 toks' b b'

theorem Shared.suffix {b b' toks toks' : List Lexeme} (h : Shared b b' toks) (hsuffix : toks' <:+ toks)
    (hcloses : blocksClose false 0 toks' = true) : Shared b b' toks' :=
  ⟨hcloses, fun tok htok => h.proper tok (hsuffix.subset htok),
    fun toks'' h'' => h.scans toks'' (h''.trans hsuffix)⟩

/-- Cursors before the same tokens of a segment. If `same` holds, text has been
read up to the same place, too. -/
structure Twin (b b' : List Lexeme) (same : Prop) (c c' : Cursor) : Prop where
  boundary : Boundary b b'
  exists_ahead : ∃ toks, Shared b b' toks ∧ c.ahead = toks ++ b ∧ c'.ahead = toks ++ b'
  lastEnd : same → c.lastEnd = c'.lastEnd

namespace Twin

variable {b b' : List Lexeme} {same same' : Prop} {c c' : Cursor}

theorem weaken (h : Twin b b' same c c') (himp : same' → same) : Twin b b' same' c c' :=
  ⟨h.boundary, h.exists_ahead, fun he => h.lastEnd (himp he)⟩

theorem loosen (h : Twin b b' True c c') : Twin b b' same c c' := h.weaken fun _ => trivial

/-- Twins stand at the boundary, or at the same token of the segment. -/
theorem cases (h : Twin b b' same c c') :
    (c.ahead = b ∧ c'.ahead = b' ∧ c.token.endsSegment = true ∧ c'.token.endsSegment = true ∧
      c.current.span = c'.current.span) ∨
    ∃ tok toks, Shared b b' (tok :: toks) ∧ c.ahead = tok :: toks ++ b ∧
      c'.ahead = tok :: toks ++ b' ∧ c.current = tok ∧ c'.current = tok := by
  obtain ⟨toks, hshared, hc, hc'⟩ := h.exists_ahead
  cases toks with
  | nil =>
    obtain ⟨x, r, x', r', rfl, rfl, hx, hx', hspan⟩ := h.boundary.exists_eq
    have hcurrent := Cursor.token_eq_of_ahead hc
    have hcurrent' := Cursor.token_eq_of_ahead hc'
    refine .inl ⟨hc, hc', ?_, ?_, by rw [hcurrent, hcurrent', hspan]⟩
    · rwa [Cursor.token, hcurrent]
    · rwa [Cursor.token, hcurrent']
  | cons tok toks =>
    exact .inr ⟨tok, toks, hshared, hc, hc', Cursor.token_eq_of_ahead hc,
      Cursor.token_eq_of_ahead hc'⟩

theorem endsSegment_iff {t : Token} : t.endsSegment = true ↔ t = .blockSep ∨ t = .blockEnd := by
  simp [Token.endsSegment]

/-- What does not tell a separator from a block end is the same at twins. -/
theorem of_token {β : Type} (h : Twin b b' same c c') (f : Token → β)
    (hf : f .blockSep = f .blockEnd) : f c.token = f c'.token := by
  rcases h.cases with ⟨-, -, hends, hends', -⟩ | ⟨tok, toks, -, -, -, hcurrent, hcurrent'⟩
  · rcases endsSegment_iff.1 hends with ht | ht <;>
      rcases endsSegment_iff.1 hends' with ht' | ht' <;> simp [ht, ht', hf]
  · rw [Cursor.token, Cursor.token, hcurrent, hcurrent']

theorem span_eq (h : Twin b b' same c c') : c.current.span = c'.current.span := by
  rcases h.cases with ⟨-, -, -, -, hspan⟩ | ⟨tok, toks, -, -, -, hcurrent, hcurrent'⟩
  · exact hspan
  · rw [hcurrent, hcurrent']

theorem isAt_eq (h : Twin b b' same c c') {t : Token} (ht : t.hasText = true) :
    c.isAt t = c'.isAt t := by
  refine h.of_token (fun t' => decide (t' = t)) ?_
  cases t <;> simp_all [Token.hasText, Token.isVirtual]

/-- Inside a segment twins stand at the same token. -/
theorem exists_cons (h : Twin b b' same c c') (hc : c.token.endsSegment = false) :
    ∃ tok toks, Shared b b' (tok :: toks) ∧ c.ahead = tok :: toks ++ b ∧
      c'.ahead = tok :: toks ++ b' ∧ c.current = tok ∧ c'.current = tok := by
  rcases h.cases with ⟨-, -, hends, -⟩ | h
  · rw [hc] at hends
    exact absurd hends Bool.false_ne_true
  · exact h

theorem endsSegment_of_hasText {t : Token} (h : t.hasText = true) : t.endsSegment = false := by
  cases t <;> simp_all [Token.hasText, Token.isVirtual, Token.endsSegment]

end Twin

/-- Twins that have read on from `c`, and all text before them alike. -/
structure Past (b b' : List Lexeme) (c c₁ c₁' : Cursor) : Prop where
  twin : Twin b b' True c₁ c₁'
  lt : c₁.ahead.length < c.ahead.length

theorem Past.of_suffix {b b' : List Lexeme} {c c₁ c₂ c₂' : Cursor} (h : Past b b' c₁ c₂ c₂')
    (hsuffix : c₁.ahead <:+ c.ahead) : Past b b' c c₂ c₂' :=
  ⟨h.twin, Nat.lt_of_lt_of_le h.lt hsuffix.length_le⟩

/-- Reading a token of the text leaves twins past it. -/
theorem Twin.advance {b b' : List Lexeme} {same : Prop} {c c' : Cursor}
    (h : Twin b b' same c c') (ht : c.token.hasText = true) :
    c.current = c'.current ∧ c.advance.ahead <:+ c.ahead ∧ Past b b' c c.advance c'.advance := by
  obtain ⟨tok, toks, hshared, hc, hc', hcurrent, hcurrent'⟩ :=
    h.exists_cons (Twin.endsSegment_of_hasText ht)
  have htok : tok.token.isVirtual = false ∧ tok.token ≠ .eof := by
    simpa [Token.hasText, Cursor.token, hcurrent] using ht
  have hadvance : ∀ {d : Cursor} {rest : List Lexeme}, d.ahead = tok :: rest →
      d.advance.ahead = rest ∧ d.advance.lastEnd = tok.span.stop := by
    intro d rest hd
    have hdtok : d.token ≠ .eof := by rw [Cursor.token, Cursor.token_eq_of_ahead hd]; exact htok.2
    have hwidth := (hshared.proper tok List.mem_cons_self).width htok.1
    rw [Cursor.advance_eq_skip hdtok]
    simp [hd, Cursor.readEnd, hwidth]
  obtain ⟨hahead, hend⟩ := hadvance hc
  obtain ⟨hahead', hend'⟩ := hadvance hc'
  have hrest : Shared b b' toks := hshared.suffix (List.suffix_cons tok toks) (by
    have := hshared.closes
    rwa [blocksClose_plain htok.1] at this)
  refine ⟨hcurrent.trans hcurrent'.symm, ?_, ⟨h.boundary, ⟨toks, hrest, hahead, hahead'⟩,
    fun _ => hend.trans hend'.symm⟩, ?_⟩
  · rw [hahead, hc]
    exact List.suffix_cons tok _
  · rw [hahead, hc]
    simp

/-- Twins that read on, read on in both streams. -/
theorem Twin.length_lt {b b' : List Lexeme} {same same₁ : Prop} {c c' c₁ c₁' : Cursor}
    (h : Twin b b' same c c') (h₁ : Twin b b' same₁ c₁ c₁') (hlt : c₁.ahead.length < c.ahead.length) :
    c₁'.ahead.length < c'.ahead.length := by
  obtain ⟨toks, -, hc, hc'⟩ := h.exists_ahead
  obtain ⟨toks₁, -, hc₁, hc₁'⟩ := h₁.exists_ahead
  rw [hc, hc₁, List.length_append, List.length_append] at hlt
  rw [hc', hc₁', List.length_append, List.length_append]
  omega

namespace Parser

variable {α β : Type} {p : Parser α} {b b' : List Lexeme} {same : Prop} {c c' : Cursor}
  {Q R : α → Cursor → Cursor → Prop}

/-- `p` does the same at both cursors. If it gives a value, `Q` holds of it and
of the cursors after it; else these are twins. -/
inductive Agrees (b b' : List Lexeme) (same : Prop) (p : Parser α) (c c' : Cursor)
    (Q : α → Cursor → Cursor → Prop) : Prop
  | ok {ds ds' a c₁ c₁'} (left : p c = (⟨ds, .ok a⟩, c₁)) (right : p c' = (⟨ds', .ok a⟩, c₁'))
      (alike : List.Forall₂ Diagnostic.Alike ds ds') (suffix : c₁.ahead <:+ c.ahead)
      (post : Q a c₁ c₁')
  | error {ds ds' d d' c₁ c₁'} (left : p c = (⟨ds, .error d⟩, c₁))
      (right : p c' = (⟨ds', .error d'⟩, c₁')) (alike : List.Forall₂ Diagnostic.Alike ds ds')
      (stops : d.Alike d') (suffix : c₁.ahead <:+ c.ahead) (twin : Twin b b' same c₁ c₁')

/-- `p` does the same at twins that have read the same text, and leaves such
twins. -/
def Steady (b b' : List Lexeme) (p : Parser α) (c c' : Cursor) : Prop :=
  Agrees b b' True p c c' fun _ => Twin b b' True

/-! ## Sequencing -/

theorem Agrees.mono (h : Agrees b b' same p c c' Q) (himp : ∀ a c₁ c₁', Q a c₁ c₁' → R a c₁ c₁') :
    Agrees b b' same p c c' R := by
  cases h with
  | ok left right alike suffix post => exact .ok left right alike suffix (himp _ _ _ post)
  | error left right alike stops suffix twin => exact .error left right alike stops suffix twin

theorem Agrees.pure {a : α} (h : Q a c c') : Agrees b b' same (pure a) c c' Q :=
  .ok rfl rfl .nil List.suffix_rfl h

theorem Agrees.bind {q : α → Parser β} {S : β → Cursor → Cursor → Prop}
    (hp : Agrees b b' same p c c' Q)
    (hq : ∀ a c₁ c₁', Q a c₁ c₁' → Agrees b b' same (q a) c₁ c₁' S) :
    Agrees b b' same (p >>= q) c c' S := by
  cases hp with
  | @ok ds ds' a c₁ c₁' left right alike suffix post =>
    cases hq a c₁ c₁' post with
    | ok left' right' alike' suffix' post' =>
      refine .ok ?_ ?_ (List.rel_append alike alike') (suffix'.trans suffix) post'
      · simp only [Bind.bind, andThen, left, left']
      · simp only [Bind.bind, andThen, right, right']
    | error left' right' alike' stops' suffix' twin' =>
      refine .error ?_ ?_ (List.rel_append alike alike') stops' (suffix'.trans suffix) twin'
      · simp only [Bind.bind, andThen, left, left']
      · simp only [Bind.bind, andThen, right, right']
  | error left right alike stops suffix twin =>
    refine .error ?_ ?_ alike stops suffix twin
    · simp only [Bind.bind, andThen, left]
    · simp only [Bind.bind, andThen, right]

theorem Agrees.map {f : α → β} {S : β → Cursor → Cursor → Prop}
    (hp : Agrees b b' same p c c' fun a => S (f a)) : Agrees b b' same (f <$> p) c c' S :=
  hp.bind fun _ _ _ h => .pure h

theorem Agrees.mapPast {f : α → β} {c₀ : Cursor} (hp : Agrees b b' same p c c' fun _ => Past b b' c₀) :
    Agrees b b' same (f <$> p) c c' fun _ => Past b b' c₀ :=
  .map hp

/-- What goes on after something has been read reads on, too. -/
theorem Agrees.past {c₀ : Cursor} (h : Steady b b' p c c') (hlt : c.ahead.length < c₀.ahead.length) :
    Agrees b b' same p c c' fun _ => Past b b' c₀ := by
  cases h with
  | ok left right alike suffix post =>
    exact .ok left right alike suffix ⟨post, Nat.lt_of_le_of_lt suffix.length_le hlt⟩
  | error left right alike stops suffix twin =>
    exact .error left right alike stops suffix twin.loosen

theorem Agrees.steady (h : Agrees b b' True p c c' fun _ => Past b b' c) : Steady b b' p c c' :=
  h.mono fun _ _ _ h => h.twin

theorem Steady.bind {q : α → Parser β} (hp : Steady b b' p c c')
    (hq : ∀ a c₁ c₁', Twin b b' True c₁ c₁' → Steady b b' (q a) c₁ c₁') :
    Steady b b' (p >>= q) c c' :=
  Agrees.bind hp hq

theorem Steady.map {f : α → β} (hp : Steady b b' p c c') : Steady b b' (f <$> p) c c' :=
  Agrees.map hp

theorem Steady.pure {a : α} (h : Twin b b' True c c') : Steady b b' (pure a : Parser α) c c' :=
  Agrees.pure h

/-! ## Looking and failing -/

section

variable {problem : Problem} {expected : String} {t : Token} {context : String} {n : Nat}

theorem Agrees.look {f : Cursor → α} (hf : f c = f c') (h : Q (f c) c c') :
    Agrees b b' same (look f) c c' Q :=
  .ok rfl (by rw [hf]; rfl) .nil List.suffix_rfl h

/-- Branching on the current token, where a separator and a block end are
treated alike. -/
theorem Agrees.lookToken {k : Token → Parser α} (h : Twin b b' same c c')
    (hk : k .blockSep = k .blockEnd) (hq : Agrees b b' same (k c.token) c c' Q) :
    Agrees b b' same (Parser.look (·.token) >>= k) c c' Q := by
  have hlook : ∀ d : Cursor, (Parser.look (·.token) >>= k) d = k d.token d := fun _ => rfl
  have htoken : k c.token = k c'.token := h.of_token k hk
  cases hq with
  | ok left right alike suffix post =>
    exact .ok ((hlook c).trans left) ((hlook c').trans (htoken ▸ right)) alike suffix post
  | error left right alike stops suffix twin =>
    exact .error ((hlook c).trans left) ((hlook c').trans (htoken ▸ right)) alike stops suffix twin

/-- Branching on a test of the cursor that gives the same at both. -/
theorem Agrees.lookIf {test : Cursor → Bool} {q : Parser α} (htest : test c = test c')
    (hp : test c = true → Agrees b b' same p c c' Q)
    (hq : test c = false → Agrees b b' same q c c' Q) :
    Agrees b b' same (do if ← Parser.look test then p else q) c c' Q := by
  have hlook : Agrees b b' same (Parser.look test) c c'
      fun a c₁ c₁' => a = test c ∧ c₁ = c ∧ c₁' = c' := .look htest ⟨rfl, rfl, rfl⟩
  refine hlook.bind ?_
  rintro a c₁ c₁' ⟨rfl, rfl, rfl⟩
  cases h : test c₁ with
  | true => simpa [h] using hp h
  | false => simpa [h] using hq h

theorem Agrees.fail {d : Diagnostic} (h : Twin b b' same c c') (hd : d.problem.missesBlockEnd = false) :
    Agrees b b' same (fail d) c c' Q :=
  .error rfl rfl .nil ⟨rfl, hd⟩ List.suffix_rfl h

theorem Agrees.failHere (h : Twin b b' same c c') (hproblem : problem.missesBlockEnd = false) :
    Agrees b b' same (failHere problem) c c' Q :=
  .error rfl rfl .nil (.of_problem h.span_eq hproblem) List.suffix_rfl h

theorem alike_unexpected (h : Twin b b' same c c') (hexpected : expected ≠ "the end of the block") :
    (c.unexpected expected).Alike (c'.unexpected expected) := by
  have hfound : Problem.foundText c.token = Problem.foundText c'.token :=
    h.of_token Problem.foundText rfl
  have hmessage : (Problem.unexpected expected c.token).message =
      (Problem.unexpected expected c'.token).message :=
    congrArg (fun found => s!"expected {expected}, found {found}") hfound
  constructor
  · simp only [Cursor.unexpected, Problem.at, Diagnostic.shown, Diagnostic.code, Diagnostic.message,
      hmessage, Problem.stage, h.span_eq]
  · rw [Cursor.unexpected, Problem.at, Problem.missesBlockEnd]
    exact decide_eq_false hexpected

theorem Agrees.unexpected (h : Twin b b' same c c') (hexpected : expected ≠ "the end of the block") :
    Agrees b b' same (unexpected expected) c c' Q :=
  .error rfl rfl .nil (alike_unexpected h hexpected) List.suffix_rfl h

theorem Agrees.record {ds : List Diagnostic} {R : Unit → Cursor → Cursor → Prop}
    (hds : ∀ d ∈ ds, d.problem.missesBlockEnd = false) (h : R () c c') :
    Agrees b b' same (record ds) c c' R :=
  .ok rfl rfl (List.forall₂_same.2 fun d hd => ⟨rfl, hds d hd⟩) List.suffix_rfl h

theorem Agrees.start (h : Twin b b' same c c') :
    Agrees b b' same start c c' fun _ c₁ c₁' => c₁ = c ∧ c₁' = c' :=
  .look (by rw [h.span_eq]) ⟨rfl, rfl⟩

theorem Steady.spanFrom (h : Twin b b' True c c') : Steady b b' (spanFrom n) c c' :=
  .look (by simp only [Cursor.spanFrom, h.lastEnd trivial]) h

/-! ## Reading -/

theorem Agrees.advance (h : Twin b b' same c c') (ht : c.token.hasText = true) :
    Agrees b b' same advance c c' fun tok c₁ c₁' => tok = c.current ∧ Past b b' c c₁ c₁' := by
  obtain ⟨hcurrent, hsuffix, hpast⟩ := h.advance ht
  exact .ok rfl (by rw [hcurrent]; rfl) .nil hsuffix ⟨rfl, hpast⟩

/-- Context comes after the token that was expected. -/
theorem expected_ne (t : Token) (context : String) : s!"`{t.text}` {context}" ≠ "the end of the block" := by
  intro h
  have := congrArg String.toList h
  simp [toString] at this

theorem Agrees.expectNone {R : Unit → Cursor → Cursor → Prop} (h : Twin b b' same c c')
    (hc : c.isAt t = false) (hc' : c'.isAt t = false) :
    Agrees b b' same (expect t context) c c' R := by
  refine .error ?_ ?_ .nil (alike_unexpected h (expected_ne t context)) List.suffix_rfl h
  · simp [Parser.expect, Cursor.expect, Cursor.eat?, hc, Report.fail]
  · simp [Parser.expect, Cursor.expect, Cursor.eat?, hc', Report.fail]

theorem Agrees.expect (h : Twin b b' same c c') (ht : t.hasText = true) :
    Agrees b b' same (expect t context) c c' fun _ => Past b b' c := by
  have hat := h.isAt_eq ht
  cases hc : c.isAt t with
  | false => exact .expectNone h hc (hat ▸ hc)
  | true =>
    have hc' := hat ▸ hc
    have htext : c.token.hasText = true := by rwa [of_decide_eq_true hc]
    obtain ⟨-, hsuffix, hpast⟩ := h.advance htext
    refine .ok (a := ()) ?_ ?_ .nil hsuffix hpast
    · simp [Parser.expect, Cursor.expect, Cursor.eat?, hc, Pure.pure]
    · simp [Parser.expect, Cursor.expect, Cursor.eat?, hc', Pure.pure]

/-- A token is there in both streams and read, or in neither. -/
theorem Agrees.eat (h : Twin b b' same c c') (ht : t.hasText = true) :
    Agrees b b' same (eat t) c c' fun read c₁ c₁' =>
      read = true ∧ Past b b' c c₁ c₁' ∨ read = false ∧ c₁ = c ∧ c₁' = c' := by
  have hat := h.isAt_eq ht
  by_cases hc : c.isAt t = true
  · have hc' := hat ▸ hc
    have htext : c.token.hasText = true := by rwa [of_decide_eq_true hc]
    obtain ⟨-, hsuffix, hpast⟩ := h.advance htext
    refine .ok ?_ ?_ .nil hsuffix (.inl ⟨rfl, hpast⟩)
    · simp [Parser.eat, Cursor.eat?, hc, Pure.pure]
    · simp [Parser.eat, Cursor.eat?, hc', Pure.pure]
  · have hc' := hat ▸ hc
    refine .ok ?_ ?_ .nil List.suffix_rfl (.inr ⟨rfl, rfl, rfl⟩)
    · simp [Parser.eat, Cursor.eat?, hc, Pure.pure]
    · simp [Parser.eat, Cursor.eat?, hc', Pure.pure]

theorem Steady.optional (h : Twin b b' True c c') (ht : t.hasText = true)
    (hp : ∀ c₁ c₁', Twin b b' True c₁ c₁' → Steady b b' p c₁ c₁') :
    Steady b b' (optional t p) c c' := by
  refine Agrees.bind (Agrees.eat h ht) ?_
  rintro read c₁ c₁' (⟨rfl, hpast⟩ | ⟨rfl, rfl, rfl⟩)
  · exact (hp c₁ c₁' hpast.twin).map
  · exact .pure h

theorem Agrees.name (h : Twin b b' same c c') (hexpected : expected ≠ "the end of the block") :
    Agrees b b' same (name expected) c c' fun _ => Past b b' c := by
  cases hident : c.token.isIdent with
  | true =>
    obtain ⟨text, htext⟩ : ∃ text, c.token = .ident text := by
      cases hc : c.token <;> simp_all [Token.isIdent]
    obtain ⟨hcurrent, hsuffix, hpast⟩ := h.advance (by rw [htext]; rfl)
    have htext' : c'.token = .ident text := by rw [Cursor.token, ← hcurrent]; exact htext
    refine .ok (a := ⟨text, c.current.span⟩) ?_ ?_ .nil hsuffix hpast
    · simp only [Parser.name, htext]
      rfl
    · simp only [Parser.name, htext', hcurrent]
      rfl
  | false =>
    have hident' : c'.token.isIdent = false := (h.of_token Token.isIdent rfl) ▸ hident
    have hname : ∀ d : Cursor, d.token.isIdent = false →
        Parser.name expected d = (.fail (d.unexpected expected), d) := by
      intro d hd
      cases hc : d.token <;> simp_all [Parser.name, Token.isIdent]
    exact .error (hname c hident) (hname c' hident') .nil (alike_unexpected h hexpected)
      List.suffix_rfl h

end

/-! ## Repetition -/

section

variable {next : Option α → Cursor → Bool} {last : Option α}

/-- Rounds that read on are repeated until no more is to be read. -/
theorem Agrees.whileFrom (hnext : ∀ last c c', Twin b b' same c c' → next last c = next last c')
    (hp : ∀ last c c', Twin b b' same c c' → next last c = true →
      Agrees b b' same p c c' fun _ => Past b b' c) (h : Twin b b' same c c') :
    Agrees b b' same (whileFrom next p last) c c' fun as c₁ c₁' => (∃ a, next a c₁ = false) ∧
      (as = [] ∧ c₁ = c ∧ c₁' = c' ∨ as ≠ [] ∧ Past b b' c c₁ c₁') := by
  induction hn : c.ahead.length using Nat.strongRecOn generalizing last c c' with
  | _ n ih =>
    subst hn
    cases hc : next last c with
    | false =>
      exact .ok (whileFrom_stop hc) (whileFrom_stop (hnext last c c' h ▸ hc)) .nil List.suffix_rfl
        ⟨⟨last, hc⟩, .inl ⟨rfl, rfl, rfl⟩⟩
    | true =>
      have hc' : next last c' = true := hnext last c c' h ▸ hc
      cases hp last c c' h hc with
      | error left right alike stops suffix twin =>
        exact .error (whileFrom_error hc left) (whileFrom_error hc' right) alike stops suffix twin
      | @ok ds ds' a c₁ c₁' left right alike suffix post =>
        have hround := whileFrom_round hc left post.lt
        have hround' := whileFrom_round hc' right (h.length_lt post.twin post.lt)
        cases ih _ post.lt post.twin.loosen rfl with
        | @ok es es' as c₂ c₂' left' right' alike' suffix' post' =>
          rw [left'] at hround
          rw [right'] at hround'
          refine .ok hround hround' (List.rel_append alike alike') (suffix'.trans suffix)
            ⟨post'.1, .inr ⟨List.cons_ne_nil a as, ?_⟩⟩
          rcases post'.2 with ⟨-, rfl, rfl⟩ | ⟨-, hpast⟩
          · exact post
          · exact hpast.of_suffix suffix
        | error left' right' alike' stops' suffix' twin' =>
          rw [left'] at hround
          rw [right'] at hround'
          exact .error hround hround' (List.rel_append alike alike') stops' (suffix'.trans suffix) twin'

/-- The same of twins that have read the same text. -/
theorem Steady.whileFrom (hnext : ∀ last c c', Twin b b' True c c' → next last c = next last c')
    (hp : ∀ last c c', Twin b b' True c c' → next last c = true →
      Agrees b b' True p c c' fun _ => Past b b' c) (h : Twin b b' True c c') :
    Agrees b b' True (whileFrom next p last) c c' fun _ c₁ c₁' =>
      (∃ a, next a c₁ = false) ∧ Twin b b' True c₁ c₁' := by
  refine (Agrees.whileFrom hnext hp h).mono ?_
  rintro as c₁ c₁' ⟨hstop, ⟨-, rfl, rfl⟩ | ⟨-, hpast⟩⟩
  · exact ⟨hstop, h⟩
  · exact ⟨hstop, hpast.twin⟩

end

section

variable {more : Cursor → Bool}

theorem Agrees.whileAt (hmore : ∀ c c', Twin b b' same c c' → more c = more c')
    (hp : ∀ c c', Twin b b' same c c' → more c = true →
      Agrees b b' same p c c' fun _ => Past b b' c) (h : Twin b b' same c c') :
    Agrees b b' same (whileAt more p) c c' fun as c₁ c₁' => more c₁ = false ∧
      (as = [] ∧ c₁ = c ∧ c₁' = c' ∨ as ≠ [] ∧ Past b b' c c₁ c₁') :=
  (Agrees.whileFrom (fun _ => hmore) (fun _ => hp) h).mono fun _ _ _ ⟨⟨_, hstop⟩, hread⟩ =>
    ⟨hstop, hread⟩

theorem Steady.whileAt (hmore : ∀ c c', Twin b b' True c c' → more c = more c')
    (hp : ∀ c c', Twin b b' True c c' → more c = true →
      Agrees b b' True p c c' fun _ => Past b b' c) (h : Twin b b' True c c') :
    Agrees b b' True (whileAt more p) c c' fun _ c₁ c₁' => more c₁ = false ∧ Twin b b' True c₁ c₁' :=
  (Steady.whileFrom (fun _ => hmore) (fun _ => hp) h).mono fun _ _ _ ⟨⟨_, hstop⟩, htwin⟩ =>
    ⟨hstop, htwin⟩

end

/-! ## Names -/

section

variable {expected : String}

theorem Agrees.names (h : Twin b b' same c c') (hexpected : expected ≠ "the end of the block") :
    Agrees b b' same (names expected) c c' fun _ => Past b b' c := by
  refine (Agrees.name h hexpected).bind fun n c₁ c₁' h₁ => .past ?_ h₁.lt
  refine Agrees.bind (Steady.whileAt ?_ ?_ h₁.twin) fun ns c₂ c₂' h₂ => .pure h₂.2
  · exact fun c c' h => h.of_token Token.isIdent rfl
  · exact fun c c' h _ => .name h hexpected

/-- Whether a name goes on shows in its own segment. -/
theorem atSegment_eq (h : Twin b b' same c c') (stop : Nat) : atSegment stop c = atSegment stop c' := by
  have hdot : c.isAt .dot = c'.isAt .dot := h.isAt_eq rfl
  cases hc : c.isAt .dot with
  | false => simp [atSegment, hc, ← hdot]
  | true =>
    have ht : c.token = .dot := of_decide_eq_true hc
    obtain ⟨tok, toks, -, hahead, hahead', hcurrent, hcurrent'⟩ :=
      h.exists_cons (by rw [ht]; rfl)
    have hcur : c.current = c'.current := hcurrent.trans hcurrent'.symm
    cases toks with
    | cons next toks =>
      have hnext : c.peekAt 1 = c'.peekAt 1 := by simp [Cursor.peekAt, hahead, hahead']
      simp [atSegment, ← hdot, hcur, hnext]
    | nil =>
      obtain ⟨x, r, x', r', rfl, rfl, hx, hx', -⟩ := h.boundary.exists_eq
      have hident : ∀ {t : Token}, t.endsSegment = true → t.isIdent = false := by
        intro t ht
        rcases Twin.endsSegment_iff.1 ht with rfl | rfl <;> rfl
      simp [atSegment, Cursor.peekAt, hahead, hahead', hident hx, hident hx']

theorem Agrees.qualifiedName (h : Twin b b' same c c') (hexpected : expected ≠ "the end of the block") :
    Agrees b b' same (qualifiedName expected) c c' fun _ => Past b b' c := by
  refine (Agrees.name h hexpected).bind fun n c₁ c₁' h₁ => .past ?_ h₁.lt
  refine Agrees.bind (Steady.whileFrom (fun _ c c' h => atSegment_eq h _) ?_ h₁.twin)
    fun ns c₂ c₂' h₂ => .pure h₂.2
  intro last c c' h hc
  have ht : c.token = .dot := by
    simp only [atSegment, Bool.and_eq_true] at hc
    exact of_decide_eq_true hc.1.1.1
  refine (Agrees.advance h (by rw [ht]; rfl)).bind fun tok c₁ c₁' h₁ => .past ?_ h₁.2.lt
  exact (Agrees.name h₁.2.twin (by decide)).steady

end

end Parser

end Offside
