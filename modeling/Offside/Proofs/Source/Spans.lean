-- SUMMARY: The spans of every parsed tree are stretches of its text, nested and in order.
import Offside.Proofs.Fixity.Spans
import Offside.Proofs.Layout.Origins
import Offside.Proofs.Parser.SpansGrammar
import Offside.Proofs.Source.Conserved

/-! # Spans of parsed texts

Layout resolution puts its markers between the tokens of a text, so the lexemes
that the parser reads stand in the order of the text: `ordered_tokens`. With
what the parser and the resolution of operators do with spans, every parsed tree
has spans that are nested like the tree and in the order of the text, whatever
problems the text has: `parse_spanned`. -/

namespace Offside

namespace Layout

variable {source : String}

/-- A marker without text stands where the token after it does. -/
theorem stands_inserted {t : Token} {next : Lexeme} (ht : t.isVirtual = true)
    (h : next.Stands source) : (Origin.inserted t next).lexeme.Stands source where
  le := Nat.le_refl _
  start := h.start
  stop := h.start
  width hreal := absurd (ht.symm.trans hreal) Bool.noConfusion
  eof _ := Span.isEmpty_point _

/-- A marker for a brace stands where the brace does. -/
theorem stands_brace {tok : Lexeme} (h : tok.Stands source) :
    (Origin.brace tok).lexeme.Stands source where
  le := h.le
  start := h.start
  stop := h.stop
  width hreal := by
    simp only [Origin.lexeme] at hreal
    split at hreal <;> simp [Token.isVirtual] at hreal
  eof heof := by
    simp only [Origin.lexeme] at heof
    split at heof <;> simp at heof

/-- Markers between the tokens of a program leave it in order. -/
theorem Woven.ordered {before os : List Origin} {raws : List Lexeme} (h : Woven before raws os)
    {offset : Nat} (hraws : Lexeme.Ordered source offset raws) :
    Lexeme.Ordered source offset (os.map Origin.lexeme) := by
  induction h generalizing offset with
  | nil => exact .nil
  | inserted isVirtual _ ih =>
    cases hraws with
    | cons after first rest =>
      exact .cons after (stands_inserted isVirtual first) (ih (.cons (Nat.le_refl _) first rest))
  | kept _ _ ih =>
    cases hraws with
    | cons after first rest => exact .cons after first (ih rest)
  | brace _ _ ih =>
    cases hraws with
    | cons after first rest => exact .cons after (stands_brace first) (ih rest)

/-- A program and its end of file, of the lexemes they are taken from. -/
theorem program_sublist {toks : List Lexeme} {eof : Lexeme}
    (h : toks.find? (·.token = .eof) = some eof) : (program toks ++ [eof]).Sublist toks := by
  obtain ⟨heof, before, after, rfl, hbefore⟩ := List.find?_eq_some_iff_append.1 h
  have heof : eof.token = .eof := by simpa using heof
  rw [program_append heof (by simpa using hbefore)]
  exact List.filter_sublist.append (List.singleton_sublist.2 List.mem_cons_self)

end Layout

namespace Source

/-- The lexemes of a text with resolved layout stand in it one after another. -/
theorem ordered_tokens (options : Options) (source : String) :
    Lexeme.Ordered source 0 (tokens options source).lexemes := by
  obtain ⟨pre, eof, out, hscan, heof, -⟩ := exists_laidOut options source
  obtain ⟨eof', os, hend, hout, hwoven⟩ :=
    Layout.exists_woven_resolve (Lexeme.scan options.tabWidth source).lexemes
  have hfound : (Lexeme.scan options.tabWidth source).lexemes.find? (·.token = .eof) =
      some eof' := by
    rcases hend with hfound | ⟨hnone, -⟩
    · exact hfound
    · rw [hscan] at hnone
      exact absurd heof.1 (by simpa using List.find?_eq_none.1 hnone eof (by simp))
  have hordered := Lexeme.ordered_scan options.tabWidth source
  have htokens := hwoven.ordered (hordered.sublist (Layout.program_sublist hfound))
  rwa [← hout] at htokens

theorem ordered_cursor (options : Options) (source : String) :
    (Cursor.ofLexemes (tokens options source).lexemes).Ordered source := by
  obtain ⟨pre, eof, out, -, heof, hout, -⟩ := exists_laidOut options source
  have hcursor : Cursor.ofLexemes (tokens options source).lexemes = ⟨out, eof, 0⟩ := by
    rw [hout, Cursor.ofLexemes_concat out heof.1]
  have hordered := ordered_tokens options source
  rw [hout] at hordered
  rw [hcursor]
  exact ⟨hordered, Text.isBoundary_zero source, heof.1⟩

/-- In every parsed tree all spans are stretches of the text, those of parts lie
in those of what they are parts of, and parts one after another in the tree are
so in the text. -/
theorem parse_spanned (options : Options) (source : String) :
    (parse options source).file.Spanned source := by
  obtain ⟨hdecls, hsequence⟩ := Parser.file_lies options (ordered_cursor options source)
  obtain ⟨hresolved, hordered⟩ :=
    Fixity.lies_resolveFile options.maxNesting hdecls hsequence
  have hwhole : (span source).Lies source ⟨0, source.utf8ByteSize⟩ :=
    Span.lies_of (Text.isBoundary_zero source) (Text.isBoundary_size source) (Nat.zero_le _)
      (Nat.le_refl _) (Nat.le_refl _)
  exact ⟨hwhole, hresolved, hordered⟩

end Source

end Offside
