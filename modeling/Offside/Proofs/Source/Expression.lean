-- SUMMARY: A text that parses as an expression is that expression in writing, up to the end of its file body.
import Offside.Proofs.Layout.FileBody
import Offside.Proofs.Source.Recovery

/-! # Texts of one expression

An expression that a text parses as, in writing, is the file body of the text,
token for token, without what only delimits: nothing in the file body is lost,
invented or reordered. What stands behind the file body is not looked at. There
is something only if the file body is in braces: `tokens_parseExpression`. -/

namespace Offside

/-! ## Tokens at no place of a block -/

/-- Outside of all blocks every token of a text carries meaning. -/
theorem carries_nil {t : Token} (hvirtual : t.isVirtual = false) (heof : t ≠ .eof)
    (toks : List Lexeme) : carries [] t toks = true := by
  cases t <;> first | rfl | exact absurd rfl heof | cases hvirtual

namespace Layout

/-- Spans at none of the tokens make no difference to what is elsewhere. -/
theorem elsewhere_append {spans others : List Span} {toks : List Lexeme}
    (h : ∀ tok ∈ toks, tok.span ∉ others) :
    elsewhere (spans ++ others) toks = elsewhere spans toks := by
  refine List.filter_congr fun tok htok => ?_
  have hother := h tok htok
  simp [hother]

end Layout

namespace Parser

/-- What a block of expressions was read from contributes what they are written as. -/
theorem sifts_expressions {options : Options} {levels : Nat} {c c' : Cursor}
    {es : List Concrete.Expr} (hc : c.Proper) (h : (expressions options levels).Accepts c es c') :
    ∃ toks, c.Passes c' toks ∧ Sifts [] toks (es.flatMap (Concrete.exprTokens .plain)) ∧
      ∀ e ∈ es, ∃ n, e.WellFormed options.maxPrecedence n := by
  cases levels with
  | zero => exact absurd h not_accepts_failHere
  | succ levels =>
    obtain ⟨items, toks, hpass, hblock, hitems⟩ := accepts_block (fun c e c' hc he => by
      obtain ⟨-, toks, hpass, hfrom⟩ := (Inner.sound options levels).expr c e c' hc he
      obtain ⟨tok, us, rfl, -⟩ := hfrom.first
      exact ⟨_, hpass, List.cons_ne_nil tok us, hfrom⟩) hc h
    refine ⟨toks, hpass, ?_, fun e he => ?_⟩
    · rw [List.flatMap_def]
      refine Sifts.block Place.settled_nil hblock ?_
      rw [List.forall₂_map_right_iff]
      exact hitems.flip.imp fun _ _ hfrom => (hfrom.sifts _).item
    · obtain ⟨_, -, hfrom⟩ := exists_of_forall₂ hitems he
      exact ⟨levels, hfrom.wellFormed⟩

end Parser

namespace Source

variable {source context : String} {e : Expr}

/-! ## What was read -/

/-- The tokens of a text that layout is resolved for, without comments and the end
of file. -/
abbrev program (options : Options) (source : String) : List Lexeme :=
  Layout.program (Lexeme.scan options.tabWidth source).lexemes

/-- The text of an expression is one expression, which resolves without problems. -/
theorem accepts_of_parseExpression (h : parseExpression source context = .ok e) :
    ∃ concrete c', (Parser.expressions {} ({} : Options).maxNesting).Accepts (cursor {} source)
        [concrete] c' ∧
      Fixity.resolveIn ({} : Options).maxNesting (declarations {} context).1 concrete = (some e, []) := by
  simp only [parseExpression] at h
  split at h
  · rename_i concrete hnone hone
    split at h
    · rename_i e' hresolve
      obtain rfl := Except.ok.inj h
      obtain ⟨-, hsettle⟩ := List.append_eq_nil_iff.1 hnone
      obtain ⟨es, hes, hgives⟩ := Report.settle_eq_iff.1 (Prod.ext rfl hsettle)
      obtain rfl : es = [concrete] := (congrArg (·.getD []) hes).symm.trans hone
      exact ⟨concrete, _, Prod.ext hgives rfl, hresolve⟩
    · cases h
  · cases h
  · cases h

/-- All of the program that is not where something only delimits. -/
theorem meaningful_eq_elsewhere (options : Options) (source : String) : meaningful options source =
    (Layout.elsewhere (delimiters options source) (program options source)).map (·.token) := by
  obtain ⟨pre, eof, out, hscan, heof, -, -, hpre, -⟩ := exists_laidOut options source
  have hraw : ∀ tok ∈ pre, tok.token ≠ .eof := fun tok htok => (hpre tok htok).1.eof
  rw [meaningful, program, hscan, Layout.program_append heof.1 hraw, Layout.elsewhere,
    List.filter_append, List.filter_filter]
  have hlast : [eof].filter (fun tok => !tok.token.isComment && tok.token ≠ .eof &&
      !(delimiters options source).contains tok.span) = [] := by
    simp [heof.1]
  rw [hlast, List.append_nil]
  congr 1
  refine List.filter_congr fun tok htok => ?_
  simp [hraw tok htok, Bool.and_comm]

/-- The program of a text as what stands in its file body and what stands behind
it. They are laid out as `block` and `after`, and no two tokens are at one place. -/
structure Divided (options : Options) (source : String) (read left block after : List Lexeme) :
    Prop where
  program_eq : program options source = read ++ left
  behind_eq : Layout.behind .initial (program options source) = left
  fileBody : Layout.FileBody read left block after
  lexemes_eq : ∃ eof, (tokens options source).lexemes = block ++ (after ++ [eof]) ∧
    eof.token = .eof ∧ eof.span.isEmpty = true
  isRaw : ∀ tok ∈ read ++ left, tok.token.IsRaw
  hasText : ∀ tok ∈ read ++ left, tok.span.isEmpty = false
  distinct : (read ++ left).Pairwise fun a b => a.span ≠ b.span

theorem exists_divided (options : Options) (source : String) :
    ∃ read left block after, Divided options source read left block after := by
  obtain ⟨pre, eof, out, hscan, heof, hout, -, hpre, horder⟩ := exists_laidOut options source
  have hvirtual : ∀ tok ∈ (Lexeme.scan options.tabWidth source).lexemes, tok.token.isVirtual = false := by
    rw [hscan]
    refine List.forall_mem_append.2 ⟨fun tok htok => (hpre tok htok).1.isVirtual, ?_⟩
    exact List.forall_mem_singleton.2 (by rw [heof.1]; rfl)
  obtain ⟨read, block, after, last, hprogram, hlexemes, hlast, hbody⟩ :=
    Layout.exists_fileBody hvirtual
  have hlexemes : (tokens options source).lexemes = block ++ (after ++ [last]) := hlexemes
  obtain rfl : eof = last := by
    rw [← List.append_assoc] at hlexemes
    exact List.singleton_inj.1 (List.append_inj' (hout.symm.trans hlexemes) rfl).2
  have hfilter : program options source = pre.filter (!·.token.isComment) := by
    rw [program, hscan, Layout.program_append heof.1 fun tok htok => (hpre tok htok).1.eof]
  have hsource : ∀ tok ∈ program options source, tok ∈ pre := by
    rw [hfilter]
    exact fun tok => List.mem_of_mem_filter
  have hdistinct : (program options source).Pairwise fun a b => a.span ≠ b.span := by
    rw [hfilter]
    refine (horder.imp_of_mem fun {a b} _ hb hab heq => ?_).filter _
    have hlt := (hpre b hb).2
    rw [heq] at hab
    omega
  refine ⟨read, _, block, after, hprogram, rfl, hbody, ⟨eof, hlexemes, heof⟩, ?_, ?_, ?_⟩
  · rw [← hprogram]
    exact fun tok htok => (hpre tok (hsource tok htok)).1
  · rw [← hprogram]
    intro tok htok
    simpa [Span.isEmpty] using Nat.ne_of_lt (hpre tok (hsource tok htok)).2
  · rwa [← hprogram]

namespace Divided

variable {options : Options} {read left block after : List Lexeme}

/-- A parser of blocks stops where the file body does. -/
theorem eq_block (h : Divided options source read left block after) {α : Type} {p : Parser α}
    (hp : p.ReadsItems) {as : List α} {c' : Cursor} {toks : List Lexeme}
    (haccepts : (Parser.block p).Accepts (cursor options source) as c')
    (hpass : (cursor options source).Passes c' toks) : toks = block := by
  obtain ⟨start, body, stop, hblock, hstart, hstop, hcloses⟩ := h.fileBody.isBlock
  obtain ⟨eof, hlexemes, heof, -⟩ := h.lexemes_eq
  obtain ⟨out, eof', hcursor, -, -, hproper⟩ := exists_rest options source
  have hahead : (cursor options source).ahead = block ++ after := by
    rw [cursor, hlexemes, ← List.append_assoc, Cursor.ofLexemes_concat _ heof]
  have hout : out = block ++ after := by rw [← hahead, hcursor]
  have hbody : ∀ tok ∈ body, tok.IsProper := fun tok htok => hproper tok (by simp [hout, hblock, htok])
  have hsplit : (cursor options source).ahead = start :: (body ++ stop :: after) := by
    simp [hahead, hblock]
  obtain ⟨⟨as', c₁, ⟨-, hc₁⟩, hafter⟩, -⟩ :=
    Parser.resumes_block hp hstart hstop hcloses hbody hsplit
  have hend : c' = c₁ := by rw [← hc₁, haccepts]
  have hread := hpass.ahead
  rw [hend, hafter, hahead] at hread
  exact (List.append_cancel_right hread).symm

/-- No token of the file body is at the place of something behind it. -/
theorem disjoint (h : Divided options source read left block after) {eof : Lexeme}
    (heof : eof.span.isEmpty = true) {marks : List (Lexeme × Bool)}
    (hmarks : marks.map (·.1) = after ++ [eof]) : ∀ tok ∈ read, tok.span ∉ Layout.skipped marks := by
  intro tok htok hmem
  have htext := h.hasText tok (List.mem_append_left _ htok)
  obtain ⟨⟨other, flag⟩, hother, hspan⟩ := List.mem_map.1 hmem
  have hout : other ∈ after ++ [eof] := by
    rw [← hmarks]
    exact List.mem_map_of_mem (List.mem_of_mem_filter hother)
  have hspan : other.span = tok.span := hspan
  rcases List.mem_append.1 hout with hafter | hlast
  · rcases h.fileBody.outside.span_eq hafter with hempty | ⟨raw, hraw, heq⟩
    · rw [hspan, htext] at hempty
      cases hempty
    · exact (List.pairwise_append.1 h.distinct).2.2 tok htok raw hraw (heq.trans hspan).symm
  · obtain rfl := List.mem_singleton.1 hlast
    rw [hspan, htext] at heof
    cases heof

/-- What carries meaning in a text, if its file body contributes `ts`. -/
theorem sifted (h : Divided options source read left block after) {ts : List Token}
    (hsifts : Sifts [] block ts) :
    ts = (Layout.elsewhere (delimiters options source) read).map (·.token) ∧
      (ts = meaningful options source ↔ left = []) := by
  obtain ⟨eof, hlexemes, heof, hempty⟩ := h.lexemes_eq
  obtain ⟨marks, hmarks, hts⟩ := hsifts (after ++ [eof])
  have hentered : Place.entered [] block = [] := Place.settled_nil.entered block
  rw [hentered] at hmarks
  have hbehind := map_fst_sift [] (after ++ [eof])
  have hblock : marks.map (·.1) = block := by
    have hall := map_fst_sift [] (block ++ (after ++ [eof]))
    rw [hmarks, List.map_append, hbehind] at hall
    exact List.append_cancel_right hall
  have hdelimiters : delimiters options source =
      Layout.skipped marks ++ Layout.skipped (sift [] (after ++ [eof])) := by
    rw [delimiters, hlexemes, hmarks]
    simp [Layout.skipped]
  have hread : ts = (Layout.elsewhere (delimiters options source) read).map (·.token) := by
    have hvirtual : ∀ tok, (tok, true) ∈ marks → tok.token.isVirtual = false := by
      intro tok htok
      have hmem : (tok, true) ∈ sift [] (block ++ (after ++ [eof])) := by
        rw [hmarks]
        exact List.mem_append_left _ htok
      exact (isVirtual_of_mem_sift hmem).1
    have hpicked := h.fileBody.inside.picked_eq
      (fun tok htok => h.hasText tok (List.mem_append_left _ htok))
      (List.pairwise_append.1 h.distinct).1 hblock hvirtual
    rw [hdelimiters, Layout.elsewhere_append (h.disjoint hempty hbehind), ← hpicked, ← hts, List.map_map]
    rfl
  refine ⟨hread, fun hall => ?_, fun hleft => ?_⟩
  · -- The first token behind the file body would carry meaning.
    by_contra hleft
    obtain ⟨tok, left', rfl⟩ := List.exists_cons_of_ne_nil hleft
    obtain ⟨after', rfl⟩ : ∃ after', after = tok :: after' := by
      have hfirst := h.fileBody.first
      cases after with
      | nil => cases hfirst
      | cons first after' =>
        obtain rfl := Option.some.inj hfirst
        exact ⟨after', rfl⟩
    have hraw := h.isRaw tok (by simp)
    rw [meaningful_eq, hlexemes, hmarks, List.filter_append, List.map_append, hts, List.cons_append, sift,
      carries_nil hraw.isVirtual hraw.eof] at hall
    simp at hall
  · rw [hread, meaningful_eq_elsewhere, h.program_eq, hleft, List.append_nil]

end Divided

/-- What the expression of a text is, in writing, is the file body of the text,
less what only delimits. It is all of the text exactly if nothing stands behind
the file body, and only a file body in braces has anything behind it. -/
theorem tokens_parseExpression (h : parseExpression source context = .ok e) :
    ∃ read, program {} source = read ++ Layout.behind .initial (program {} source) ∧
      e.tokens .plain = (Layout.elsewhere (delimiters {} source) read).map (·.token) ∧
      (e.tokens .plain = meaningful {} source ↔
        Layout.behind .initial (program {} source) = []) ∧
      (Layout.behind .initial (program {} source) ≠ [] → ∃ opening contents closing,
        read = opening :: (contents ++ [closing]) ∧ opening.token = .lbrace ∧
          closing.token = .rbrace) := by
  obtain ⟨concrete, c', haccepts, hresolve⟩ := accepts_of_parseExpression h
  obtain ⟨toks, hpass, hsifts, hwf⟩ :=
    Parser.sifts_expressions (proper_ofLexemes {} source) haccepts
  obtain ⟨n, hconcrete⟩ := hwf concrete (List.mem_singleton_self _)
  have hwritten : e.tokens .plain = Concrete.exprTokens .plain concrete :=
    (Fixity.keeps .plain _).inBlock hconcrete hresolve
  obtain ⟨read, left, block, after, hdivided⟩ := exists_divided {} source
  obtain rfl : toks = block :=
    hdivided.eq_block (Parser.readsItems_expr (Parser.isSteady_inner {} _)) haccepts hpass
  rw [List.flatMap_singleton, ← hwritten] at hsifts
  obtain ⟨hread, hall⟩ := hdivided.sifted hsifts
  rw [hdivided.behind_eq]
  exact ⟨read, hdivided.program_eq, hread, hall, hdivided.fileBody.braces⟩

/-- The name behind the braces is no part of the expression. -/
theorem tokens_parseExpression_braces :
    ∃ e, parseExpression "\x7b a \x7d b" "" = .ok e ∧ e.tokens .plain = [.ident "a"] ∧
      meaningful {} "\x7b a \x7d b" = [.ident "a", .ident "b"] ∧
      e.tokens .plain ≠ meaningful {} "\x7b a \x7d b" := by
  have hread : (parseExpression "\x7b a \x7d b" "").map (·.tokens .plain) = .ok [.ident "a"] := by
    decide +kernel
  cases h : parseExpression "\x7b a \x7d b" "" with
  | error ds =>
    rw [h] at hread
    cases hread
  | ok e =>
    rw [h] at hread
    obtain ⟨-, -, -, hall, -⟩ := tokens_parseExpression h
    have hbehind : Layout.behind .initial (program {} "\x7b a \x7d b") ≠ [] := by decide +kernel
    exact ⟨e, rfl, Except.ok.inj hread, by decide +kernel, fun heq => hbehind (hall.1 heq)⟩

end Source

end Offside
