-- SUMMARY: A text that parses without problems is its tree in writing, less what only delimits.
import Offside.Proofs.Fixity.Conserves
import Offside.Proofs.Layout.Keeps
import Offside.Proofs.Lexeme.Scanned
import Offside.Proofs.Parser.Soundness
import Offside.Source

/-! # Nothing is lost

Of a text that parses without problems, the tree in writing is all that was
scanned, token for token, without comments and without what only delimits. -/

namespace Offside

namespace Source

variable {options : Options} {source : String}

/-! ## Texts without problems -/

/-- What a parse without problems gives at each stage. -/
structure Clean (options : Options) (source : String) (concrete : List (Decl Concrete.Expr)) :
    Prop where
  scan : (Lexeme.scan options.tabWidth source).diagnostics = []
  layout : (Layout.resolve (Lexeme.scan options.tabWidth source).lexemes).diagnostics = []
  file : Parser.file options (.ofLexemes (tokens options source).lexemes) = (concrete, [])
  resolve : Fixity.resolveFile options.maxNesting concrete =
    ((parse options source).file.decls, [])

theorem diagnostics_parse (options : Options) (source : String) :
    (parse options source).diagnostics = Diagnostic.sort ((declarations options source).2 ++
      (Fixity.resolveFile options.maxNesting (declarations options source).1).2) := rfl

theorem clean_of_diagnostics (h : (parse options source).diagnostics = []) :
    ∃ concrete, Clean options source concrete := by
  have hnone : (declarations options source).2 ++
      (Fixity.resolveFile options.maxNesting (declarations options source).1).2 = [] := by
    have hperm := Diagnostic.sort_perm ((declarations options source).2 ++
      (Fixity.resolveFile options.maxNesting (declarations options source).1).2)
    rw [← diagnostics_parse, h] at hperm
    exact hperm.nil_eq.symm
  obtain ⟨hdecls, hresolve⟩ := List.append_eq_nil_iff.1 hnone
  obtain ⟨hstream, hfile⟩ := List.append_eq_nil_iff.1 hdecls
  obtain ⟨hscan, hlayout⟩ := List.append_eq_nil_iff.1 hstream
  exact ⟨(declarations options source).1, hscan, hlayout, Prod.ext rfl hfile, Prod.ext rfl hresolve⟩

/-- The lexemes of a text, and what they are with resolved layout. -/
theorem exists_laidOut (options : Options) (source : String) : ∃ pre eof out,
    (Lexeme.scan options.tabWidth source).lexemes = pre ++ [eof] ∧
    (eof.token = .eof ∧ eof.span.isEmpty = true) ∧
    (tokens options source).lexemes = out ++ [eof] ∧
    Layout.LaidOut (pre.filter (!·.token.isComment)) out ∧
    (∀ tok ∈ pre, tok.token.IsRaw ∧ tok.span.start < tok.span.stop) ∧
    pre.Pairwise fun a b => a.span.stop ≤ b.span.start := by
  obtain ⟨pre, eof, hscan, heof, hpre, horder⟩ :=
    (Lexeme.isScanned_scanFrom options.tabWidth .start source.toList).exists_eq
  obtain ⟨out, hout, hlaid⟩ := Layout.laidOut_resolve heof.1 fun tok htok => (hpre tok htok).1.eof
  refine ⟨pre, eof, out, hscan, heof, ?_, hlaid, fun tok htok => ⟨(hpre tok htok).1,
    (hpre tok htok).2.1⟩, horder⟩
  rw [← hout, ← hscan]
  rfl

theorem proper_ofLexemes (options : Options) (source : String) :
    (Cursor.ofLexemes (tokens options source).lexemes).Proper := by
  obtain ⟨pre, eof, out, -, heof, hout, hlaid, hpre, horder⟩ := exists_laidOut options source
  have hcursor : Cursor.ofLexemes (tokens options source).lexemes = ⟨out, eof, 0⟩ := by
    rw [hout, Cursor.ofLexemes_concat out heof.1]
  have hraw : ∀ tok ∈ out, tok.token.isVirtual = false → tok.token.IsRaw := by
    intro tok htok hvirtual
    exact (hpre tok (List.mem_of_mem_filter (hlaid.mem_of_mem htok hvirtual))).1
  rw [hcursor]
  refine ⟨heof.1, fun tok htok ht => ?_, fun tok htok ht => ?_, ?_⟩
  · exact (hraw tok htok (by rw [ht]; rfl)).eof ht
  · exact (hraw tok htok (by rw [ht]; rfl)).word ht
  · apply hlaid.pairwise
    refine (horder.imp_of_mem fun ha _ hab => ?_).filter _
    exact Nat.lt_of_lt_of_le (hpre _ ha).2 hab

/-! ## What carries meaning -/

/-- The places of the tokens that only delimit: the braces of blocks, the
semicolons between their items, the bars before constructors, and the `where`
of clauses whose block is empty. -/
def delimiters (options : Options) (source : String) : List Span :=
  Layout.skipped (sift [] (tokens options source).lexemes)

/-- The tokens of a text without comments, the end of file and what only
delimits. -/
def meaningful (options : Options) (source : String) : List Token :=
  ((Lexeme.scan options.tabWidth source).lexemes.filter fun tok =>
    !tok.token.isComment && tok.token ≠ .eof &&
      !(delimiters options source).contains tok.span).map (·.token)

/-- What is left of a text is what carries meaning in it once its layout is
resolved. -/
theorem meaningful_eq (options : Options) (source : String) :
    meaningful options source =
      ((sift [] (tokens options source).lexemes).filter (·.2)).map (·.1.token) := by
  obtain ⟨pre, eof, out, hscan, heof, hout, hlaid, hpre, horder⟩ := exists_laidOut options source
  rw [meaningful, delimiters, hscan, hout]
  have hmarks := map_fst_sift [] (out ++ [eof])
  have hpicked : ∀ tok, (tok, true) ∈ sift [] (out ++ [eof]) →
      tok.token.isVirtual = false ∧ tok.token ≠ .eof := fun tok => isVirtual_of_mem_sift
  generalize sift [] (out ++ [eof]) = marks at hmarks hpicked ⊢
  obtain ⟨marks, lasts, rfl, hinits, hlast⟩ := List.map_eq_append_iff.1 hmarks
  obtain ⟨⟨last, flag⟩, lasts, rfl, rfl, hnil⟩ := List.map_eq_cons_iff.1 hlast
  obtain rfl := List.map_eq_nil_iff.1 hnil
  -- the end of file is not picked, and has no text
  obtain rfl : flag = false := by
    cases flag with
    | false => rfl
    | true => exact absurd heof.1 (hpicked last (by simp)).2
  have hspans : ∀ tok ∈ pre.filter (!·.token.isComment), tok.span.isEmpty = false := by
    intro tok htok
    have hlt := (hpre tok (List.mem_of_mem_filter htok)).2
    simpa [Span.isEmpty] using Nat.ne_of_lt hlt
  have hdistinct : (pre.filter (!·.token.isComment)).Pairwise fun a b => a.span ≠ b.span := by
    refine (horder.imp_of_mem fun {a b} ha hb hab heq => ?_).filter _
    have hlt := (hpre b hb).2
    rw [heq] at hab
    omega
  have hkept := hlaid.picked_eq hspans hdistinct hinits
    fun tok htok => (hpicked tok (List.mem_append_left _ htok)).1
  have hskipped : Layout.skipped (marks ++ [(last, false)]) = Layout.skipped marks ++ [last.span] := by
    simp [Layout.skipped]
  have hfilter : (pre ++ [last]).filter (fun tok => !tok.token.isComment && tok.token ≠ .eof &&
      !(Layout.skipped marks ++ [last.span]).contains tok.span) =
      Layout.elsewhere (Layout.skipped marks) (pre.filter (!·.token.isComment)) := by
    have hlast : last.token = .eof := heof.1
    have hnone : [last].filter (fun tok => !tok.token.isComment && tok.token ≠ .eof &&
        !(Layout.skipped marks ++ [last.span]).contains tok.span) = [] := by
      simp [hlast]
    rw [List.filter_append, hnone, List.append_nil, Layout.elsewhere, List.filter_filter]
    refine List.filter_congr fun tok htok => ?_
    have hraw := (hpre tok htok).1.eof
    have hne : tok.span ≠ last.span := by
      intro heq
      have hempty := heof.2
      rw [← heq, Span.isEmpty, beq_iff_eq] at hempty
      exact absurd hempty (Nat.ne_of_lt (hpre tok htok).2)
    simp [hraw, hne, Bool.and_comm]
  rw [hskipped, hfilter, ← hkept]
  simp

/-- The tree of a text without problems, in writing, is what the text holds:
nothing is dropped, invented or reordered. -/
theorem tokens_eq_meaningful (h : (parse options source).diagnostics = []) :
    (parse options source).file.tokens .plain .plain = meaningful options source := by
  obtain ⟨concrete, hclean⟩ := clean_of_diagnostics h
  obtain ⟨-, hwf, hsifts⟩ := Parser.file_sound (proper_ofLexemes options source) hclean.file
  have hwritten := Fixity.resolveFile_tokens hwf hclean.resolve .plain .plain
  obtain ⟨pre, eof, out, -, heof, hout, -⟩ := exists_laidOut options source
  have hahead : (Cursor.ofLexemes (tokens options source).lexemes).ahead = out := by
    rw [hout]
    simp [Cursor.ofLexemes, heof.1]
  rw [hahead] at hsifts
  obtain ⟨marks, hmarks, hts⟩ := hsifts [eof]
  have hend : sift (Place.entered [] out) [eof] = [(eof, false)] := by
    rw [sift, heof.1]
    rfl
  rw [File.tokens, hwritten, ← Concrete.fileTokens, meaningful_eq, hout, hmarks, hend, ← hts]
  simp

/-- The braces, the semicolon and the last `where` only delimit. -/
theorem tokens_eq_meaningful_let :
    (parse {} "f = let \x7b a = b ; c = d \x7d in a where -- none\n").file.tokens .plain .plain =
      [.ident "f", .equals, .kwLet, .ident "a", .equals, .ident "b", .ident "c", .equals,
        .ident "d", .kwIn, .ident "a"] :=
  (tokens_eq_meaningful (by decide +kernel)).trans (by decide +kernel)

end Source

end Offside
