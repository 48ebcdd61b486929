-- SUMMARY: The stretches of a stream that accepting parses pass over: tokens, repetitions, names, blocks.
import Mathlib.Data.List.Forall2
import Mathlib.Data.List.TakeWhile
import Offside.Proofs.Concrete.Written
import Offside.Proofs.Parser.Accepts
import Offside.Proofs.Parser.Sift

/-! # What a parse has passed over

`Cursor.Passes` names the lexemes between two places of a stream. For the
parsers that all productions share it is shown which lexemes they pass over. -/

namespace Offside

/-! ## Stretches of a stream -/

/-- Reading from `c` to `c'` passes over `toks`. -/
structure Cursor.Passes (c c' : Cursor) (toks : List Lexeme) : Prop where
  ahead : c.ahead = toks ++ c'.ahead
  eof : c'.eof = c.eof

/-- A cursor over a stream as it comes from a text: only the last token is an
end of file, an underscore is no identifier, and tokens that are no markers
stand in order. -/
structure Cursor.Proper (c : Cursor) : Prop where
  eof : c.eof.token = .eof
  tokens : ∀ tok ∈ c.ahead, tok.token ≠ .eof
  words : ∀ tok ∈ c.ahead, tok.token ≠ .ident "_"
  starts : c.ahead.Pairwise fun a b =>
    a.token.isVirtual = false → b.token.isVirtual = false → a.span.start < b.span.start

namespace Cursor

variable {c c' c₁ c₂ : Cursor} {a b toks : List Lexeme}

theorem Passes.refl (c : Cursor) : c.Passes c [] := ⟨rfl, rfl⟩

theorem Passes.trans (h₁ : c.Passes c₁ a) (h₂ : c₁.Passes c₂ b) : c.Passes c₂ (a ++ b) :=
  ⟨by rw [h₁.ahead, h₂.ahead, List.append_assoc], h₂.eof.trans h₁.eof⟩

theorem Passes.proper (h : c.Passes c' toks) (hc : c.Proper) : c'.Proper where
  eof := by rw [h.eof, hc.eof]
  tokens := fun tok htok => hc.tokens tok (by rw [h.ahead]; exact List.mem_append_right _ htok)
  words := fun tok htok => hc.words tok (by rw [h.ahead]; exact List.mem_append_right _ htok)
  starts := by
    have hstarts := hc.starts
    rw [h.ahead] at hstarts
    exact (List.pairwise_append.1 hstarts).2.1

theorem Passes.starts (h : c.Passes c' toks) (hc : c.Proper) : toks.Pairwise fun a b =>
    a.token.isVirtual = false → b.token.isVirtual = false → a.span.start < b.span.start := by
  have hstarts := hc.starts
  rw [h.ahead] at hstarts
  exact (List.pairwise_append.1 hstarts).1

theorem Passes.token_eq (h : c.Passes c' []) : c'.token = c.token := by
  have hahead : c'.ahead = c.ahead := h.ahead.symm
  simp only [token, current, peekAt, hahead, h.eof]

theorem Passes.length_lt (h : c.Passes c' toks) (hne : toks ≠ []) :
    c'.ahead.length < c.ahead.length := by
  have hpos := List.length_pos_iff.2 hne
  rw [h.ahead, List.length_append]
  omega

/-- Reading the current token, which is no end of file. -/
theorem Proper.read (hc : c.Proper) {t : Token} (h : c.token = t) (ht : t ≠ .eof) :
    c.current.token = t ∧ c.Passes c.advance [c.current] ∧ c.advance.Proper := by
  have hne : c.token ≠ .eof := by rwa [h]
  have hpass : c.Passes c.advance [c.current] := by
    rw [advance_eq_skip hne]
    exact ⟨ahead_eq_cons hc.eof hne, rfl⟩
  exact ⟨h, hpass, hpass.proper hc⟩

/-- At an end of file nothing is ahead. -/
theorem Proper.ahead_eq_nil (hc : c.Proper) (h : c.token = .eof) : c.ahead = [] := by
  cases hahead : c.ahead with
  | nil => rfl
  | cons tok toks =>
    rw [token, token_eq_of_ahead hahead] at h
    exact absurd h (hc.tokens tok (by rw [hahead]; exact List.mem_cons_self))

theorem Passes.skip (c : Cursor) (n : Nat) : c.Passes (c.skip n) (c.ahead.take n) :=
  ⟨(List.take_append_drop n c.ahead).symm, rfl⟩

end Cursor

/-- One stretch after another, in an item that has begun. -/
theorem Place.Settled.append {ps : List Place} {a b : List Lexeme} {ts us : List Token}
    (hps : Place.Settled ps) (ha : Sifts ps a ts) (hb : Sifts ps b us) :
    Sifts ps (a ++ b) (ts ++ us) :=
  ha.append (by rwa [hps.entered])

namespace Sifts

variable {ps : List Place} {toks : List Lexeme} {ts : List Token}

/-- Tokens that stand for themselves wherever they are. -/
theorem ofTokens (h : toks.map (·.token) = ts) (hts : ∀ t ∈ ts, isPlain t = true) :
    Sifts ps toks ts := by
  rw [← h] at hts ⊢
  exact plains fun tok htok => hts _ (List.mem_map_of_mem htok)

/-- A token that stands for itself, before a stretch. -/
theorem cons {tok : Lexeme} {t : Token} (htok : tok.token = t) (ht : isPlain t = true)
    (h : Sifts (Place.begin t ps) toks ts) : Sifts ps (tok :: toks) (t :: ts) := by
  subst htok
  exact (plain ht).append h

/-- Stretches one after another, in an item that has begun. -/
theorem flattenIn {α : Type} {write : α → List Token} {as : List α} {tokss : List (List Lexeme)}
    (hps : Place.Settled ps) (h : List.Forall₂ (fun a toks => Sifts ps toks (write a)) as tokss) :
    Sifts ps tokss.flatten (as.flatMap write) := by
  induction h with
  | nil => exact nil
  | cons hfirst _ ih =>
    apply hfirst.append
    rwa [hps.entered]

/-- Stretches one after another. -/
theorem flatten {α : Type} {write : α → List Token} {as : List α} {tokss : List (List Lexeme)}
    (h : List.Forall₂ (fun a toks => ∀ ps, Sifts ps toks (write a)) as tokss) (ps : List Place) :
    Sifts ps tokss.flatten (as.flatMap write) := by
  induction h generalizing ps with
  | nil => exact nil
  | cons hfirst _ ih => exact (hfirst ps).append (ih _)

end Sifts

namespace Parser

variable {α : Type} {c c' : Cursor}

/-! ## Repetition -/

/-- The rounds of a repetition, each of which reads something. -/
theorem accepts_whileFrom {next : Option α → Cursor → Bool} {p : Parser α}
    {P : α → List Lexeme → Prop}
    (hp : ∀ last c a c', c.Proper → next last c = true → Accepts p c a c' →
      ∃ toks, c.Passes c' toks ∧ toks ≠ [] ∧ P a toks)
    {last : Option α} {as : List α} (hc : c.Proper) (h : Accepts (whileFrom next p last) c as c') :
    (∃ before, next before c' = false) ∧
      ∃ tokss, c.Passes c' tokss.flatten ∧ List.Forall₂ P as tokss := by
  refine accepts_whileFrom_induct (motive := fun _ c as c' => c.Proper →
    (∃ before, next before c' = false) ∧
      ∃ tokss, c.Passes c' tokss.flatten ∧ List.Forall₂ P as tokss) ?_ ?_ ?_ h hc
  · intro last c hstop _
    exact ⟨⟨last, hstop⟩, [], .refl c, .nil⟩
  · intro last c a c₁ as c₂ hnext ha _ ih hc
    obtain ⟨toks, hpass, -, hP⟩ := hp last c a c₁ hc hnext ha
    obtain ⟨hstop, tokss, hpasses, hPs⟩ := ih (hpass.proper hc)
    exact ⟨hstop, toks :: tokss, hpass.trans hpasses, .cons hP hPs⟩
  · intro last c a c₁ hnext ha hstuck hc
    obtain ⟨toks, hpass, hne, -⟩ := hp last c a c₁ hc hnext ha
    exact absurd (hpass.length_lt hne) hstuck

theorem accepts_whileAt {more : Cursor → Bool} {p : Parser α} {P : α → List Lexeme → Prop}
    (hp : ∀ c a c', c.Proper → more c = true → Accepts p c a c' →
      ∃ toks, c.Passes c' toks ∧ toks ≠ [] ∧ P a toks)
    {as : List α} (hc : c.Proper) (h : Accepts (whileAt more p) c as c') :
    more c' = false ∧ ∃ tokss, c.Passes c' tokss.flatten ∧ List.Forall₂ P as tokss := by
  obtain ⟨⟨-, hstop⟩, hrounds⟩ := accepts_whileFrom (fun _ => hp) hc h
  exact ⟨hstop, hrounds⟩

/-- What holds of the written form of each of some stretches holds of all. -/
theorem flatten_tokens {write : α → List Token} {as : List α} {tokss : List (List Lexeme)}
    (h : List.Forall₂ (fun a toks => toks.map (·.token) = write a) as tokss) :
    tokss.flatten.map (·.token) = as.flatMap write := by
  induction h with
  | nil => rfl
  | cons hfirst _ ih => rw [List.flatten_cons, List.map_append, hfirst, ih, List.flatMap_cons]

theorem exists_of_forall₂ {β : Type} {P : α → β → Prop} {as : List α} {bs : List β}
    (h : List.Forall₂ P as bs) {a : α} (ha : a ∈ as) : ∃ b ∈ bs, P a b := by
  induction h with
  | nil => simp at ha
  | cons hfirst _ ih =>
    rcases List.mem_cons.1 ha with rfl | ha
    · exact ⟨_, List.mem_cons_self, hfirst⟩
    · obtain ⟨b, hb, hP⟩ := ih ha
      exact ⟨b, List.mem_cons_of_mem _ hb, hP⟩

/-! ## Names -/

theorem accepts_name {expected : String} {n : Name} (hc : c.Proper)
    (h : (name expected).Accepts c n c') :
    ∃ tok, c.Passes c' [tok] ∧ tok.token = n.token ∧ n.span = tok.span := by
  obtain ⟨text, hat, rfl, rfl⟩ := accepts_name_iff.1 h
  obtain ⟨htok, hpass, -⟩ := hc.read hat (by simp)
  exact ⟨c.current, hpass, htok, rfl⟩

/-- One or more identifiers stand for themselves. -/
theorem accepts_names {expected : String} {ns : List Name} (hc : c.Proper)
    (h : (names expected).Accepts c ns c') :
    ns ≠ [] ∧ ∃ toks, c.Passes c' toks ∧ toks.map (·.token) = ns.map Name.token := by
  simp only [names, accepts_bind_iff] at h
  obtain ⟨n, c₁, hfirst, ns, c₂, hothers, hpure⟩ := h
  obtain ⟨rfl, rfl⟩ := accepts_pure_iff.1 hpure
  obtain ⟨tok, hpass, htok, -⟩ := accepts_name hc hfirst
  obtain ⟨-, tokss, hpasses, heach⟩ :=
    accepts_whileAt (P := fun n toks => toks.map (·.token) = [n.token]) (fun c n c' hc _ hn => by
      obtain ⟨tok, hpass, htok, -⟩ := accepts_name hc hn
      exact ⟨[tok], hpass, by simp, by simp [htok]⟩) (hpass.proper hc) hothers
  have hflat := flatten_tokens heach
  rw [← List.map_eq_flatMap] at hflat
  exact ⟨by simp, _, hpass.trans hpasses, by simp [htok, hflat]⟩

/-- A qualified name stands for itself. -/
theorem accepts_qualifiedName {expected : String} {q : QualifiedName} (hc : c.Proper)
    (h : (qualifiedName expected).Accepts c q c') :
    q.segments ≠ [] ∧ ∃ toks, c.Passes c' toks ∧ toks.map (·.token) = q.tokens := by
  simp only [qualifiedName, accepts_bind_iff] at h
  obtain ⟨n, c₁, hfirst, ns, c₂, hothers, hpure⟩ := h
  obtain ⟨rfl, rfl⟩ := accepts_pure_iff.1 hpure
  obtain ⟨tok, hpass, htok, -⟩ := accepts_name hc hfirst
  have hround : ∀ (last : Option Name) c n' c', c.Proper →
      atSegment (last.getD n).span.stop c = true →
      Accepts (do let _ ← advance; name "a name after `.`") c n' c' →
      ∃ toks, c.Passes c' toks ∧ toks ≠ [] ∧ toks.map (·.token) = [.dot, n'.token] := by
    intro last c n' c' hc hmore hn
    have hdot : c.token = .dot := by
      simp only [atSegment, Cursor.isAt, Bool.and_eq_true, decide_eq_true_eq] at hmore
      exact hmore.1.1.1
    obtain ⟨dot, c₁, hadv, hn⟩ := accepts_bind_iff.1 hn
    obtain ⟨rfl, rfl⟩ := accepts_advance_iff.1 hadv
    obtain ⟨hdot, hpass, hc₁⟩ := hc.read hdot (by simp)
    obtain ⟨tok, hpass', htok, -⟩ := accepts_name hc₁ hn
    exact ⟨_, hpass.trans hpass', by simp, by simp [htok, hdot]⟩
  obtain ⟨-, tokss, hpasses, heach⟩ := accepts_whileFrom hround (hpass.proper hc) hothers
  refine ⟨by simp, _, hpass.trans hpasses, ?_⟩
  rw [List.map_append, flatten_tokens heach, QualifiedName.tokens_cons]
  simp [htok]

theorem accepts_boundName {expected : String} {n : Name} (hc : c.Proper)
    (h : (boundName expected).Accepts c n c') :
    ∃ toks, c.Passes c' toks ∧ toks ≠ [] ∧ toks.map (·.token) = [n.boundToken] := by
  simp only [boundName, accepts_bind_iff, accepts_look_iff] at h
  obtain ⟨b, _, ⟨rfl, rfl⟩, h⟩ := h
  split at h
  · rename_i hat
    obtain ⟨tok, c₁, hadv, hpure⟩ := accepts_bind_iff.1 h
    obtain ⟨rfl, rfl⟩ := accepts_advance_iff.1 hadv
    obtain ⟨rfl, rfl⟩ := accepts_pure_iff.1 hpure
    obtain ⟨htok, hpass, -⟩ := hc.read (of_decide_eq_true hat) (by simp)
    exact ⟨[c.current], hpass, by simp, by simp [htok, Name.boundToken]⟩
  · obtain ⟨tok, hpass, htok, -⟩ := accepts_name hc h
    have hword := hc.words tok (by rw [hpass.ahead]; simp)
    refine ⟨[tok], hpass, by simp, ?_⟩
    rw [htok, Name.token] at hword
    rw [List.map_singleton, htok, Name.token, Name.boundToken, if_neg fun h => hword (by rw [h])]

theorem isPlain_boundToken (n : Name) : Sifts.isPlain n.boundToken = true := by
  rw [Name.boundToken]
  split <;> rfl

theorem isPlain_of_mem_qualifiedName {q : QualifiedName} {t : Token} (h : t ∈ q.tokens) :
    Sifts.isPlain t = true := by
  obtain ⟨span, segments⟩ := q
  cases segments with
  | nil => simp [QualifiedName.tokens] at h
  | cons n ns =>
    rw [QualifiedName.tokens_cons] at h
    simp only [List.mem_cons, List.mem_flatMap, List.not_mem_nil, or_false] at h
    rcases h with rfl | ⟨m, -, rfl | rfl⟩ <;> rfl

/-! ## Blocks -/

section

variable {R : Lexeme → Lexeme → Prop} {fresh : Bool} {items : List (List Lexeme)}
  {toks : List Lexeme}

theorem mem_of_items (h : Items fresh items toks) {item : List Lexeme} (hitem : item ∈ items)
    {tok : Lexeme} (htok : tok ∈ item) : tok ∈ toks := by
  induction h with
  | done => simp at hitem
  | item _ _ _ ih =>
    rcases List.mem_cons.1 hitem with rfl | hitem
    · simp [htok]
    · simp [ih hitem]

/-- What holds between the tokens of a stream holds across its items. -/
theorem items_pairwise (h : Items fresh items toks) (hR : toks.Pairwise R) :
    items.Pairwise fun a b => ∀ x ∈ a, ∀ y ∈ b, R x y := by
  induction h with
  | done => exact .nil
  | item _ _ hrest ih =>
    have hsplit := (List.pairwise_append.1 (List.pairwise_append.1 hR).2.1)
    refine .cons (fun b hb x hx y hy => ?_) (ih hsplit.2.1)
    exact hsplit.2.2 x hx y (mem_of_items hrest hb hy)

end

theorem passes_skipSeparators (hc : c.Proper) :
    ∃ seps, c.Passes c.skipSeparators seps ∧ (∀ tok ∈ seps, tok.token.isSeparator = true) ∧
      (seps = [] → c.token.isSeparator = false) := by
  refine ⟨c.ahead.takeWhile (·.token.isSeparator), ?_, ?_, ?_⟩
  · have hskip := Cursor.Passes.skip c (c.ahead.takeWhile (·.token.isSeparator)).length
    rwa [← List.prefix_iff_eq_take.1 (List.takeWhile_prefix _)] at hskip
  · intro tok htok
    have hsep := List.mem_takeWhile_imp htok
    exact hsep
  · intro hnil
    cases hahead : c.ahead with
    | nil => rw [Cursor.token, Cursor.current_of_ahead_nil hahead, hc.eof]; rfl
    | cons tok toks =>
      rw [hahead, List.takeWhile_cons] at hnil
      rw [Cursor.token, Cursor.token_eq_of_ahead hahead]
      cases hsep : tok.token.isSeparator with
      | false => rfl
      | true => simp [hsep] at hnil

/-- Between an item and a further one there are separators. -/
theorem passes_moreItems (hc : c.Proper) (hmore : moreItems c = true) :
    ∃ seps, c.Passes c.skipSeparators seps ∧ (∀ tok ∈ seps, tok.token.isSeparator = true) ∧
      (atItemEnd c = true → seps ≠ []) := by
  obtain ⟨seps, hpass, hseps, hnil⟩ := passes_skipSeparators hc
  refine ⟨seps, hpass, hseps, ?_⟩
  rintro hend rfl
  have hclose : c.token = .blockEnd := by
    simpa [atItemEnd, hnil rfl, Cursor.isAt] using hend
  rw [← hpass.token_eq] at hclose
  simp [moreItems, Cursor.isAt, hclose] at hmore

/-- A block is the stretches of its items, between markers and separators. -/
theorem accepts_block {p : Parser α} {P : α → List Lexeme → Prop}
    (hp : ∀ c a c', c.Proper → Accepts p c a c' → ∃ toks, c.Passes c' toks ∧ toks ≠ [] ∧ P a toks)
    {as : List α} (hc : c.Proper) (h : (block p).Accepts c as c') :
    ∃ items toks, c.Passes c' toks ∧ IsBlock items toks ∧ List.Forall₂ P as items := by
  obtain ⟨hstart, rounds, c₁, hrounds, hend, rfl, rfl⟩ := accepts_block_iff.1 h
  obtain ⟨hopening, hpass₀, hc₀⟩ := hc.read hstart (by simp)
  -- `fresh` says that no item comes right before
  have hitems := accepts_whileAt_induct (motive := fun c os c' => ∀ fresh, c.Proper →
    (fresh = true ∨ atItemEnd c = true) → ∃ items toks, c.Passes c'.skipSeparators toks ∧
      Items fresh items toks ∧ List.Forall₂ P (os.filterMap id) items) ?_ ?_ ?_ hrounds
  · obtain ⟨items, toks, hpass, hinside, heach⟩ := hitems true hc₀ (.inl rfl)
    obtain ⟨hclosing, hpass', -⟩ := (hpass.proper hc₀).read hend (by simp)
    refine ⟨items, _, hpass₀.trans (hpass.trans hpass'), ⟨_, toks, _, ?_, hopening, hclosing, hinside⟩, heach⟩
    simp
  · intro c _ fresh hc _
    obtain ⟨seps, hpass, hseps, -⟩ := passes_skipSeparators hc
    exact ⟨[], seps, hpass, .done hseps, .nil⟩
  · intro c o c₁ os c₂ hmore ho hlt ih fresh hc hfresh
    obtain ⟨_, _, hskip, ho⟩ := accepts_bind_iff.1 ho
    obtain rfl := accepts_move_iff.1 hskip
    obtain ⟨a, ha, hend, rfl⟩ := accepts_item_iff.1 ho
    obtain ⟨seps, hpass, hseps, hne⟩ := passes_moreItems hc hmore
    obtain ⟨item, hpass₁, -, hP⟩ := hp _ a c₁ (hpass.proper hc) ha
    obtain ⟨items, toks, hpass₂, hrest, heach⟩ := ih false (hpass₁.proper (hpass.proper hc)) (.inr hend)
    exact ⟨item :: items, _, hpass.trans (hpass₁.trans hpass₂), .item hseps (hfresh.imp_right hne) hrest,
      .cons hP heach⟩
  · intro c o c₁ hmore ho hstuck fresh hc _
    obtain ⟨_, _, hskip, ho⟩ := accepts_bind_iff.1 ho
    obtain rfl := accepts_move_iff.1 hskip
    obtain ⟨a, ha, -, rfl⟩ := accepts_item_iff.1 ho
    obtain ⟨seps, hpass, -⟩ := passes_skipSeparators hc
    obtain ⟨item, hpass₁, hne, -⟩ := hp _ a c₁ (hpass.proper hc) ha
    exact absurd ((hpass.trans hpass₁).length_lt (by simp [hne])) hstuck

end Parser

end Offside
