-- SUMMARY: The surface form of a text that parses without problems parses to the same tree.
import Offside.Proofs.Fixity.Printed
import Offside.Proofs.Fixity.Respan
import Offside.Proofs.Parser.Completeness
import Offside.Proofs.Source.Conserved

/-! # Round trip

A text that parses without problems is printed, and what is printed parses to
the same tree up to spans. Three things can go wrong, and only these: a name of
the text is a reserved word in the printed text, a brace and a name after it
look like the start of a comment, and an `in` closes a block in braces. -/

namespace Offside

/-! ## Names -/

/-- Whatever names `ts` holds, `us` holds them too. -/
def NamesIn (ts us : List Token) : Prop := ∀ n, .ident n ∈ ts → .ident n ∈ us

namespace NamesIn

variable {ts ts' us us' : List Token}

theorem refl (ts : List Token) : NamesIn ts ts := fun _ h => h

theorem append (h : NamesIn ts us) (h' : NamesIn ts' us') : NamesIn (ts ++ ts') (us ++ us') := by
  intro n hn
  rcases List.mem_append.1 hn with hn | hn
  · exact List.mem_append_left _ (h n hn)
  · exact List.mem_append_right _ (h' n hn)

theorem cons (t : Token) (h : NamesIn ts us) : NamesIn (t :: ts) (t :: us) :=
  (refl [t]).append h

section

variable {α : Type} {xs : List α} {f g : α → List Token}

theorem flatMap (h : ∀ x ∈ xs, NamesIn (f x) (g x)) : NamesIn (xs.flatMap f) (xs.flatMap g) := by
  intro n hn
  obtain ⟨x, hx, hn⟩ := List.mem_flatMap.1 hn
  exact List.mem_flatMap.2 ⟨x, hx, h x hx n hn⟩

/-- Separators that are no names do not matter. -/
theorem intercalate {sep : List Token} (hsep : ∀ n, .ident n ∉ sep) (h : ∀ x ∈ xs, NamesIn (f x) (g x)) :
    NamesIn (sep.intercalate (xs.map f)) (xs.flatMap g) := by
  induction xs with
  | nil => exact refl []
  | cons x xs ih =>
    obtain ⟨hx, hxs⟩ := List.forall_mem_cons.1 h
    cases xs with
    | nil => simpa [List.intercalate] using hx
    | cons y ys =>
      have hnone : NamesIn sep [] := fun n hn => absurd hn (hsep n)
      have hall := hx.append (hnone.append (ih hxs))
      simpa [List.intercalate_cons_cons] using hall

theorem semicolons (h : ∀ x ∈ xs, NamesIn (f x) (g x)) :
    NamesIn ([Token.semicolon].intercalate (xs.map f)) ([Token.semicolon].intercalate (xs.map g)) := by
  intro n hn
  obtain ⟨x, hx, hn⟩ := List.mem_flatMap.1 (intercalate (by simp) h n hn)
  exact mem_intercalate hx hn

theorem block (h : ∀ x ∈ xs, NamesIn (f x) (g x)) :
    NamesIn (Style.braces.block (xs.map f)) (Style.plain.block (xs.map g)) := by
  rw [Style.plain_block, ← List.flatMap_def]
  intro n hn
  have hmem : .ident n ∈ [Token.semicolon].intercalate (xs.map f) := by
    simpa [Style.block, Style.braces] using hn
  exact intercalate (by simp) h n hmem

end

end NamesIn

theorem namesIn_param {p : Param Expr} (h : NamesIn (p.type.tokens .braces) (p.type.tokens .plain)) :
    NamesIn (writeParam .braces p) (writeParam .plain p) := by
  rw [writeParam_eq, writeParam_eq]
  exact (((NamesIn.refl _).append (h.cons _)).append (.refl _))

theorem namesIn_signature {g : Signature Expr}
    (h : NamesIn (g.type.tokens .braces) (g.type.tokens .plain)) :
    NamesIn (writeSignature .braces g) (writeSignature .plain g) :=
  (NamesIn.refl _).append (h.cons _)

theorem namesIn_option {t : Token} {o : Option Expr}
    (h : ∀ e ∈ o, NamesIn (e.tokens .braces) (e.tokens .plain)) :
    NamesIn (writeOption .braces t o) (writeOption .plain t o) := by
  cases o with
  | none => exact .refl _
  | some e => exact (h e rfl).cons _

theorem namesIn_header {header : Header Expr}
    (hparams : ∀ p ∈ header.params, NamesIn (p.type.tokens .braces) (p.type.tokens .plain))
    (htype : ∀ e ∈ header.type, NamesIn (e.tokens .braces) (e.tokens .plain)) :
    NamesIn (writeHeader .braces header) (writeHeader .plain header) := by
  rw [writeHeader_eq, writeHeader_eq]
  exact ((NamesIn.flatMap fun p hp => namesIn_param (hparams p hp)).cons _).append (namesIn_option htype)

/-- Members in any order hold the same names. -/
theorem namesIn_members {ms ms' : List (Nat × List Token)}
    (h : ∀ m ∈ ms, ∃ m' ∈ ms', NamesIn m.2 m'.2) :
    NamesIn (Style.braces.block (Style.braces.arrange ms))
      (Style.plain.block (Style.plain.arrange ms')) := by
  intro n hn
  have hsame : NamesIn _ (Style.plain.block (ms.map (·.2))) := .block fun m _ => .refl m.2
  have hmem := hsame n hn
  rw [Style.plain_block, List.mem_flatten] at hmem ⊢
  obtain ⟨ts, hts, hn⟩ := hmem
  obtain ⟨m, hm, rfl⟩ := List.mem_map.1 hts
  obtain ⟨m', hm', hnames⟩ := h m hm
  exact ⟨m'.2, List.mem_map_of_mem (List.mem_mergeSort.2 hm'), hnames n hn⟩

theorem mem_leftTokens {isOperator : Bool} {tss : List (List Token)} {t : Token} :
    t ∈ leftTokens isOperator tss ↔ ∃ ts ∈ tss, t ∈ ts := by
  unfold leftTokens
  split
  · simp [or_left_comm]
  · exact List.mem_flatten

theorem namesIn_left {isOperator : Bool} {es : List Expr}
    (h : ∀ e ∈ es, NamesIn (e.tokens .braces) (e.tokens .plain)) :
    NamesIn (leftTokens isOperator (writeExprs .braces es))
      (leftTokens isOperator (writeExprs .plain es)) := by
  intro n hn
  rw [mem_leftTokens, writeExprs_eq] at hn ⊢
  obtain ⟨ts, hts, hn⟩ := hn
  obtain ⟨e, he, rfl⟩ := List.mem_map.1 hts
  exact ⟨e.tokens .plain, List.mem_map_of_mem he, h e he n hn⟩

/-- The names of a tree do not depend on how its blocks are delimited. -/
theorem namesIn_plain : Expr.Cases (fun e => NamesIn (e.tokens .braces) (e.tokens .plain))
    (fun d => NamesIn (writeDecl .braces .braces d) (writeDecl .plain .plain d)) where
  leaf l := by
    rw [Expr.tokens, Expr.tokens]
    exact .refl _
  paren span e he := by
    rw [Expr.tokens, Expr.tokens]
    exact (he.cons _).append (.refl _)
  record span builder fields hfields := by
    rw [Expr.tokens, Expr.tokens, writeAssignments_eq, writeAssignments_eq]
    have hvalues := NamesIn.semicolons fun f hf =>
      ((hfields f hf).cons .equals).cons f.name.token
    exact ((NamesIn.refl _).append (hvalues.cons _)).append (.refl _)
  arrow span domain codomain hdomain hcodomain := by
    rw [Expr.tokens, Expr.tokens]
    exact hdomain.append (hcodomain.cons _)
  pi span params codomain hparams hcodomain := by
    rw [Expr.tokens, Expr.tokens, writeParams_eq, writeParams_eq]
    exact (NamesIn.flatMap fun p hp => namesIn_param (hparams p hp)).append (hcodomain.cons _)
  bind span binder bindings body hbindings hbody := by
    rw [Expr.tokens, Expr.tokens, writeBindings_eq, writeBindings_eq]
    refine ((NamesIn.flatMap ?_).cons _).append (hbody.cons _)
    rintro (n | p) hb
    · exact .refl _
    · exact namesIn_param (hbindings p hb)
  letIn span decls body hdecls hbody := by
    rw [Expr.tokens, Expr.tokens, writeDecls_eq, writeDecls_eq]
    exact ((NamesIn.block hdecls).cons _).append (hbody.cons _)
  app span fn arg hfn harg := by
    rw [Expr.tokens, Expr.tokens]
    exact hfn.append harg
  operation span operator left right hleft hright := by
    rw [Expr.tokens, Expr.tokens]
    exact hleft.append (hright.cons _)
  dataType span header constructors hparams htype hconstructors := by
    rw [writeDecl, writeDecl, writeSignatures_eq, writeSignatures_eq]
    exact ((namesIn_header hparams htype).cons _).append
      ((NamesIn.block fun g hg => namesIn_signature (hconstructors g hg)).cons _)
  emptyData span header hparams htype := by
    rw [writeDecl, writeDecl]
    exact (namesIn_header hparams htype).cons _
  recordType span header builder fields decls hparams htype hfields hdecls := by
    rw [writeDecl_recordType, writeDecl_recordType]
    refine ((namesIn_header hparams htype).cons _).append (.cons _ (namesIn_members ?_))
    simp only [writeMembers, List.forall_mem_append, List.forall_mem_map]
    refine ⟨⟨fun n hn => ?_, fun g hg => ?_⟩, fun d hd => ?_⟩
    · exact ⟨_, List.mem_append_left _ (List.mem_append_left _ (List.mem_map_of_mem hn)), .refl _⟩
    · exact ⟨_, List.mem_append_left _ (List.mem_append_right _ (List.mem_map_of_mem hg)),
        (namesIn_signature (hfields g hg)).cons _⟩
    · exact ⟨_, List.mem_append_right _ (List.mem_map_of_mem hd), hdecls d hd⟩
  moduleBlock span name params decls hparams hdecls := by
    rw [writeDecl, writeDecl, writeParams_eq, writeParams_eq, writeDecls_eq, writeDecls_eq]
    exact ((NamesIn.refl _).append (.flatMap fun p hp => namesIn_param (hparams p hp))).append
      ((NamesIn.block hdecls).cons _)
  importModule span kind name := by
    rw [writeDecl, writeDecl]
    exact .refl _
  ascription signature htype := by
    rw [writeDecl_ascription, writeDecl_ascription]
    exact namesIn_signature htype
  clause span patterns isOperator withPatterns withExpr rhs locals hpatterns hwith hexpr hrhs
      hlocals := by
    rw [writeDecl, writeDecl]
    refine ((((namesIn_left hpatterns).append ?_).append (namesIn_option hexpr)).append
      (namesIn_option hrhs)).append ?_
    · rw [writeExprs_eq, writeExprs_eq, List.map_map, List.map_map, ← List.flatMap_def,
        ← List.flatMap_def]
      exact .flatMap fun e he => (hwith e he).cons _
    · split
      · exact .refl _
      · rw [writeDecls_eq, writeDecls_eq]
        exact (NamesIn.block hlocals).cons _
  fixity span fixity operators := by
    rw [writeDecl, writeDecl]
    exact .refl _

namespace Source

variable {options : Options} {source : String}

/-- Every name of the tree of a text without problems is a name of the text. -/
theorem Clean.exists_name {concrete : List (Decl Concrete.Expr)} (h : Clean options source concrete)
    {name : String} (hname : .ident name ∈ (parse options source).file.tokens .plain .plain) :
    ∃ tok ∈ (Lexeme.scan options.tabWidth source).lexemes, tok.token = .ident name := by
  obtain ⟨-, hwf, hsifts⟩ := Parser.file_sound (proper_ofLexemes options source) h.file
  obtain ⟨pre, eof, out, hscan, heof, hout, hlaid, -⟩ := exists_laidOut options source
  obtain ⟨marks, hmarks, hts⟩ := hsifts []
  have hahead : (Cursor.ofLexemes (tokens options source).lexemes).ahead = out := by
    rw [hout, Cursor.ofLexemes_concat out heof.1]
  have hfst := map_fst_sift [] (out ++ [])
  rw [hahead] at hmarks
  rw [File.tokens, Fixity.resolveFile_tokens hwf h.resolve, ← Concrete.fileTokens, ← hts] at hname
  obtain ⟨⟨tok, kept⟩, hmark, htok⟩ := List.mem_map.1 hname
  have hmem : tok ∈ out := by
    rw [hmarks, List.append_nil] at hfst
    rw [← hfst]
    exact List.mem_map_of_mem (List.mem_append_left _ (List.mem_of_mem_filter hmark))
  refine ⟨tok, ?_, htok⟩
  rw [hscan]
  refine List.mem_append_left _ (List.mem_of_mem_filter (hlaid.mem_of_mem hmem ?_))
  exact congrArg Token.isVirtual htok

/-- If each stage goes without problems, so does the parse. -/
theorem parse_eq {toks out : List Lexeme} {concrete : List (Decl Concrete.Expr)}
    {decls : List (Decl Expr)} (hscan : Lexeme.scan options.tabWidth source = ⟨toks, []⟩)
    (hlayout : Layout.resolve toks = ⟨out, []⟩)
    (hfile : Parser.file options (.ofLexemes out) = (concrete, []))
    (hresolve : Fixity.resolveFile options.maxNesting concrete = (decls, [])) :
    parse options source = ⟨⟨span source, decls⟩, []⟩ := by
  have htokens : tokens options source = ⟨out, []⟩ := by
    simp [tokens, withLayout, hscan, hlayout]
  simp [parse, parseTokens, declarationsIn, htokens, hfile, hresolve, Diagnostic.sort]

theorem toList_print (file : File) : file.print.toList =
    ((file.decls.flatMap Decl.lines).map String.toList).flatMap (· ++ ['\n']) := by
  simp [File.print, List.flatMap_map]

theorem uncommented_line {file : File} (h : Uncommented file.print.toList) {text : String}
    (htext : text ∈ file.decls.flatMap Decl.lines) : Uncommented text.toList := by
  refine h.of_part ?_
  rw [toList_print]
  have hmem : text.toList ∈ (file.decls.flatMap Decl.lines).map String.toList :=
    List.mem_map_of_mem htext
  obtain ⟨before, after, hlines⟩ := List.append_of_mem hmem
  rw [hlines, List.flatMap_append, List.flatMap_cons, List.append_assoc]
  exact ⟨before.flatMap (· ++ ['\n']), '\n' :: after.flatMap (· ++ ['\n']), by simp⟩

theorem Clean.legible {concrete : List (Decl Concrete.Expr)} (h : Clean options source concrete)
    (hnames : ∀ tok ∈ (Lexeme.scan options.tabWidth source).lexemes, tok.token.isIdent = true →
      Token.reserved.lookup tok.token.text = none) :
    ∀ d ∈ (parse options source).file.decls, ∀ t ∈ writeDecl .braces .braces d, t.Legible := by
  intro d hd t ht
  cases t with
  | ident name =>
    have hplain : .ident name ∈ (parse options source).file.tokens .plain .plain := by
      rw [File.tokens, Style.plain_block, writeDecls_eq, ← List.flatMap_def]
      exact List.mem_flatMap.2 ⟨d, hd, namesIn_plain.decl d name ht⟩
    obtain ⟨tok, htok, hname⟩ := h.exists_name hplain
    have hfree := hnames tok htok
    rw [hname] at hfree
    exact Lexeme.isWord_of_mem_scanFrom _ _ _ tok htok name hname (hfree rfl)
  | _ => trivial

/-- The surface form of a text without problems is scanned line by line, and its
lines are laid out as the tree in writing. -/
theorem Clean.exists_lines {concrete : List (Decl Concrete.Expr)} (h : Clean options source concrete)
    (hnames : ∀ tok ∈ (Lexeme.scan options.tabWidth source).lexemes, tok.token.isIdent = true →
      Token.reserved.lookup tok.token.text = none)
    (hplain : Uncommented (parse options source).file.print.toList) :
    ∃ liness toks eof,
      Lexeme.scan options.tabWidth (parse options source).file.print = ⟨toks ++ [eof], []⟩ ∧
      eof.token = .eof ∧ Layout.Lines 1 liness.flatten toks ∧
      (∀ tok ∈ toks, tok.token ≠ .eof ∧ tok.token.isComment = false) ∧
      List.Forall₂ Layout.LaysItem liness
        (writeDecls (.marked .blockSep) (.marked .semicolon) (parse options source).file.decls) := by
  obtain ⟨-, hwf, -⟩ := Parser.file_sound (proper_ofLexemes options source) h.file
  have hdecls : ∀ d ∈ (parse options source).file.decls, DeclPrints d :=
    forall_of_forall₂ ((Fixity.printed _).file hwf h.resolve) fun _ _ _ hd => hd
  have hprints : ∀ d ∈ (parse options source).file.decls, LinesPrint d.lines
      (writeDecl .braces .braces d) (writeDecl (.marked .blockSep) (.marked .semicolon) d) :=
    fun d hd => (hdecls d hd).lines
  obtain ⟨liness, hspells, hlays⟩ := Offside.exists_lines hprints
    (fun text htext => uncommented_line hplain htext) (h.legible hnames)
  obtain ⟨toks, m, hscan, hlines, hreal⟩ :=
    Lexeme.scanFrom_lines hspells options.tabWidth (m := .start) rfl rfl
  refine ⟨liness, toks, ⟨.eof, .point m.offset, m.line, m.column, false⟩, ?_, rfl, hlines, hreal, ?_⟩
  · rw [Lexeme.scan, toList_print, hscan, Lexeme.scanFrom]
    rfl
  · rw [writeDecls_eq]
    exact hlays

/-- The surface form of a text that parses without problems parses without
problems, to the same tree up to spans, if no name of the text is a reserved
word, nothing in the surface form starts a comment, and no `in` of it closes a
block in braces. -/
theorem parse_print (h : (parse options source).diagnostics = [])
    (hnames : ∀ tok ∈ (Lexeme.scan options.tabWidth source).lexemes, tok.token.isIdent = true →
      Token.reserved.lookup tok.token.text = none)
    (hplain : Uncommented (parse options source).file.print.toList)
    (hspare : Layout.stolen .initial (Layout.program
      (Lexeme.scan options.tabWidth (parse options source).file.print).lexemes) = 0) :
    (parse options (parse options source).file.print).diagnostics = [] ∧
    (parse options (parse options source).file.print).file.dump = (parse options source).file.dump ∧
    (parse options (parse options source).file.print).file.print = (parse options source).file.print := by
  obtain ⟨concrete, hclean⟩ := clean_of_diagnostics h
  obtain ⟨hlevels, hwf, -⟩ := Parser.file_sound (proper_ofLexemes options source) hclean.file
  obtain ⟨liness, toks, eof, hscan, heof, hlines, hreal, hlays⟩ := hclean.exists_lines hnames hplain
  rw [hscan, Layout.program_concat heof hreal] at hspare
  obtain ⟨out, hlayout, hout, hjoined⟩ := Layout.resolve_lines hlays hlines hreal heof hspare
  have htokens : (out ++ [eof]).map (·.token) = (Style.marked .blockSep).block
      (writeDecls (.marked .blockSep) (.marked .semicolon) (parse options source).file.decls) ++
        [.eof] := by
    rw [List.map_append, hout, List.map_singleton, heof]
  rw [Fixity.resolveFile_tokens hwf hclean.resolve] at htokens
  obtain ⟨hspaced, hahead⟩ := Parser.ofLexemes_concat htokens hjoined
  obtain ⟨concrete', hfile, hbare, -⟩ := Parser.file_written rfl rfl hlevels hwf hspaced hahead
  obtain ⟨decls, hresolve, hsame⟩ := Fixity.resolveFile_eq_of_bare hbare hclean.resolve
  rw [parse_eq hscan hlayout hfile hresolve]
  exact ⟨rfl, File.dump_eq_of_bare hsame, File.print_eq_of_bare hsame⟩

/-- A `let` and a `where`, and an operator with its fixity. -/
theorem parse_print_let :
    let source := "infixl 6 +\nf x = let y = x + 1 in g (y)\n  where g = \\z -> z\n"
    (parse {} (parse {} source).file.print).diagnostics = [] ∧
    (parse {} (parse {} source).file.print).file.dump = (parse {} source).file.dump ∧
    (parse {} (parse {} source).file.print).file.print = (parse {} source).file.print := by
  refine parse_print (by decide +kernel) (by decide +kernel) ?_ (by decide +kernel)
  unfold Uncommented
  decide +kernel

end Source

end Offside
