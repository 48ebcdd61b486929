-- SUMMARY: Two texts without problems have one dump only if their trees agree up to spans and parentheses.
import Offside.Proofs.Fixity.Named
import Offside.Proofs.Fixity.Readback
import Offside.Proofs.Source.RoundTrip

/-! # Dumps identify trees

The dump of a file is a text without escapes, in which the use of an operator and
an application look the same. It is nevertheless the dump of one tree only, up to
spans and parentheses: its S-expressions can be told apart, and the fixity
declarations among them say which names are operators. -/

namespace Offside

/-- A file without its spans and parentheses. -/
def File.core (file : File) : File := ⟨default, coreDecls file.decls⟩

theorem isGroup_declSexp (d : Decl Expr) : (declSexp d).isGroup = true := by
  cases d <;> rw [declSexp] <;> rfl

/-- The dump of a file is the text of its declarations, one on each line. -/
theorem File.toList_dump {file : File} (hnamed : ∀ d ∈ file.decls, d.Named) :
    file.dump.toList = (file.decls.map declSexp).flatMap fun s => s.text ++ ['\n'] := by
  have hdecl : ∀ d ∈ file.decls, (dumpDecl d).toList ++ ['\n'] = (declSexp d).text ++ ['\n'] := by
    intro d hd
    have htext := (dumped.decl d (hnamed d hd)).text
    simp only [List.map_singleton, List.intercalate_singleton] at htext
    rw [htext]
  have hlines : file.dump.toList = file.decls.flatMap fun d => (dumpDecl d).toList ++ ['\n'] := by
    simp [File.dump, List.flatMap_map]
  rw [hlines, List.flatMap_map, List.flatMap_def, List.flatMap_def, List.map_congr_left hdecl]

/-- Files that follow their scopes and have one dump agree up to spans and
parentheses. -/
theorem File.core_eq_of_dump_eq {f g : File} (hf : ∀ d ∈ f.decls, d.Named)
    (hg : ∀ d ∈ g.decls, d.Named) (hfscoped : f.Scoped) (hgscoped : g.Scoped)
    (h : f.dump = g.dump) : f.core = g.core := by
  have hlegible : ∀ {file : File}, (∀ d ∈ file.decls, d.Named) →
      ∀ s ∈ file.decls.map declSexp, s.Legible ∧ s.isGroup = true := by
    intro file hnamed
    rw [List.forall_mem_map]
    intro d hd
    exact ⟨(dumped.decl d (hnamed d hd)).legible _ List.mem_cons_self, isGroup_declSexp d⟩
  have hsexps : f.decls.map declSexp = g.decls.map declSexp := by
    refine Sexp.lines_inj (hlegible hf) (hlegible hg) ?_
    rw [← toList_dump hf, ← toList_dump hg, h]
  -- The fixity declarations are the same, so both are read in one way.
  have hoperators : declared f.decls = declared g.decls := by
    rw [← operators_declSexps, ← operators_declSexps, hsexps]
  have hread : ∀ {file : File}, (∀ d ∈ file.decls, d.Named) → file.Scoped →
      (readMembers false (declared file.decls) (file.decls.map declSexp)).filterMap Member.decl? =
        coreDecls file.decls := by
    intro file hnamed hscoped
    rw [readMembers_decls fun d hd => readsBack.decl d _ (hnamed d hd) (hscoped d hd),
      Member.filterMap_decl?_block]
  rw [core, core, ← hread hf hfscoped, ← hread hg hgscoped, hoperators, hsexps]

namespace Source

variable {options options' : Options} {source source' : String}

/-- The names of the tree of a text without problems can be read off its dump, and
the tree follows its scopes. -/
theorem Clean.named_scoped {concrete : List (Decl Concrete.Expr)} (h : Clean options source concrete)
    (hnames : ∀ tok ∈ (Lexeme.scan options.tabWidth source).lexemes, tok.token.isIdent = true →
      Token.reserved.lookup tok.token.text = none) :
    (∀ d ∈ (parse options source).file.decls, d.Named) ∧ (parse options source).file.Scoped := by
  obtain ⟨-, hwf, -⟩ := Parser.file_sound (proper_ofLexemes options source) h.file
  constructor
  · intro d hd
    exact forall_of_forall₂ ((Fixity.named _).file hwf h.resolve) (fun _ _ _ hd => hd) d hd
      (h.legible hnames d hd)
  · have hscoped : ∀ d ∈ (Fixity.resolveFile options.maxNesting concrete).1,
        d.Scoped (declared (Fixity.resolveFile options.maxNesting concrete).1) :=
      Fixity.scoped_resolveFile hwf
    rwa [h.resolve] at hscoped

/-- Two texts that parse without problems have one dump only if their trees are the
same up to spans and parentheses, if no name of the texts is a reserved word. -/
theorem dump_identifies (h : (parse options source).diagnostics = [])
    (h' : (parse options' source').diagnostics = [])
    (hnames : ∀ tok ∈ (Lexeme.scan options.tabWidth source).lexemes, tok.token.isIdent = true →
      Token.reserved.lookup tok.token.text = none)
    (hnames' : ∀ tok ∈ (Lexeme.scan options'.tabWidth source').lexemes, tok.token.isIdent = true →
      Token.reserved.lookup tok.token.text = none)
    (hdump : (parse options source).file.dump = (parse options' source').file.dump) :
    (parse options source).file.core = (parse options' source').file.core := by
  obtain ⟨concrete, hclean⟩ := clean_of_diagnostics h
  obtain ⟨concrete', hclean'⟩ := clean_of_diagnostics h'
  obtain ⟨hnamed, hscoped⟩ := hclean.named_scoped hnames
  obtain ⟨hnamed', hscoped'⟩ := hclean'.named_scoped hnames'
  exact File.core_eq_of_dump_eq hnamed hnamed' hscoped hscoped' hdump

/-- Two texts that differ in blanks and parentheses, with an operator and an
application of it to two arguments. -/
theorem dump_identifies_parentheses :
    let source := "infixl 6 +\nx = a + (b)\n  where c = f a b\n"
    let source' := "infixl  6 +\nx = (a) + b where { c = (f) a b }\n"
    (parse {} source).file.core = (parse {} source').file.core :=
  dump_identifies (by decide +kernel) (by decide +kernel) (by decide +kernel) (by decide +kernel)
    (by decide +kernel)

end Source

end Offside
