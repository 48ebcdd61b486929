-- SUMMARY: The nesting limit bounds the height of a parsed tree, but for chains of applications and chains to the left.
import Offside.Proofs.Fixity.Height
import Offside.Proofs.Fixity.Runs
import Offside.Proofs.Source.RoundTrip

/-! # Heights of parsed trees

Every level of a parsed tree comes from a level of the grammar, from an argument
or from a right operand that was open, and all of these are limited:
`parse_height`. A chain of applications or of operators that group to the left
takes no level, and the tree is as high as the chain is long: `height_unbounded`. -/

namespace Offside

/-! ## The bound -/

namespace Source

/-- Where steps along chains of applications and to the left do not count, the
height of a parsed tree is bounded by the nesting limit alone, whatever the text
is. -/
theorem parse_height (options : Options) (source : String) :
    (parse options source).file.height .nesting ≤
      options.maxNesting * (options.maxNesting + 3) + 1 := by
  have hformed := Parser.file_formed options (.ofLexemes (tokens options source).lexemes)
  refine Fixity.height_resolveDecls (fun d hd => ?_) (Nat.le_refl _)
  have hbound := (Fixity.bounds options.maxPrecedence options.maxNesting).decl d _
    (hformed d hd).wellFormed
  exact hbound.mono (Nat.add_le_add_right (Nat.mul_le_mul_right _ (Nat.sub_le _ 1)) 1)

end Source

/-! ## Texts of plain words -/

/-- A token that neither opens nor closes anything closes no block in braces. -/
theorem Layout.stolen_of_isFlat {state : State} {toks : List Lexeme}
    (h : ∀ tok ∈ toks, tok.token.isFlat = true) : stolen state toks = 0 := by
  induction toks generalizing state with
  | nil => rfl
  | cons tok toks ih =>
    obtain ⟨hflat, hothers⟩ := List.forall_mem_cons.1 h
    have hin : tok.token ≠ .kwIn := by
      intro hin
      rw [hin] at hflat
      cases hflat
    rw [stolen, ih hothers, steals, if_neg fun hsteals => hin hsteals.1]

theorem Layout.Lays.of_isFlat {ts : List Token} (h : ∀ t ∈ ts, t.isFlat = true) : Lays ts ts := by
  induction ts with
  | nil => exact .nil
  | cons t ts ih =>
    obtain ⟨hflat, hothers⟩ := List.forall_mem_cons.1 h
    exact (Lays.single hflat).append (ih hothers)

theorem Layout.Lines.tokens {column : Nat} {lines : List Line} {toks : List Lexeme}
    (h : Lines column lines toks) : toks.map (·.token) = lines.flatMap (·.tokens) := by
  induction h with
  | nil => rfl
  | cons first _ ih => rw [List.map_append, first.tokens, ih, List.flatMap_cons]

/-- Lines at the left margin that open and close nothing are the items of the
file. -/
theorem Layout.resolve_flat {tss : List (List Token)} {toks : List Lexeme} {eof : Lexeme}
    (hflat : ∀ ts ∈ tss, ∀ t ∈ ts, t.isFlat = true) (hlines : Lines 1 (tss.map (Line.mk 0)) toks)
    (hreal : ∀ tok ∈ toks, tok.token ≠ .eof ∧ tok.token.isComment = false)
    (heof : eof.token = .eof) :
    ∃ out, resolve (toks ++ [eof]) = ⟨out ++ [eof], []⟩ ∧
      out.map (·.token) = (Style.marked .blockSep).block tss ∧
      (out ++ [eof]).IsChain Lexeme.Joined := by
  have hlays : List.Forall₂ LaysItem (tss.map fun ts => [⟨0, ts⟩]) tss := by
    rw [List.forall₂_map_left_iff]
    exact List.forall₂_same.2 fun ts hts => .single (.of_isFlat (hflat ts hts))
  have hspare : stolen .initial toks = 0 := by
    refine stolen_of_isFlat fun tok htok => ?_
    have hmem : tok.token ∈ toks.map (·.token) := List.mem_map_of_mem htok
    rw [hlines.tokens, List.flatMap_map, List.mem_flatMap] at hmem
    obtain ⟨ts, hts, hmem⟩ := hmem
    exact hflat ts hts _ hmem
  have hitems : (tss.map fun ts => [Line.mk 0 ts]).flatten = tss.map (Line.mk 0) := by
    rw [← List.flatMap_def, ← List.map_eq_flatMap]
  exact resolve_lines hlays (hitems ▸ hlines) hreal heof hspare

/-- The token that a word is by itself. -/
def Token.word (text : String) : Token := (ofWord text.toList none).getD .eof

/-- Whether a word stands for one token that neither opens nor closes anything. -/
def Token.isPlainWord (text : String) : Bool :=
  Lexeme.isWord text.toList (word text) && (word text).isWritten && (word text).isFlat

theorem Token.of_isPlainWord {text : String} (h : isPlainWord text = true) :
    Lexeme.IsWord text.toList (word text) ∧ (word text).isWritten = true ∧
      (word text).isFlat = true := by
  simp only [isPlainWord, Bool.and_eq_true] at h
  exact ⟨.of_isWord h.1.1, h.1.2, h.2⟩

namespace Source

variable {options : Options}

/-- A text in lines, with a blank between words. -/
def ofWords (lines : List (List String)) : String :=
  String.join (lines.map fun line => " ".intercalate line ++ "\n")

theorem spellsLine_words {words : List String} (h : ∀ w ∈ words, Token.isPlainWord w = true)
    (hne : words ≠ []) :
    Lexeme.SpellsLine (" ".intercalate words).toList ⟨0, words.map Token.word⟩ := by
  have hspells : ∀ w ∈ words, Lexeme.Spells w.toList [Token.word w] := by
    intro w hw
    obtain ⟨hword, hwritten, -⟩ := Token.of_isPlainWord (h w hw)
    exact hword.spells hwritten
  have hall : List.Forall₂ Lexeme.Spells (words.map String.toList)
      (words.map fun w => [Token.word w]) := by
    rw [List.forall₂_map_left_iff, List.forall₂_map_right_iff]
    exact List.forall₂_same.2 hspells
  have hline := Lexeme.Spells.unwords hall (by simpa using hne)
  rw [← List.flatMap_def, ← List.map_eq_flatMap] at hline
  refine ⟨⟨_, ?_, hline⟩, ?_⟩
  · simp [String.toList_intercalate]
  · obtain ⟨w, ws, rfl⟩ := List.exists_cons_of_ne_nil hne
    have hflat := (Token.of_isPlainWord (h w List.mem_cons_self)).2.2
    refine ⟨Token.word w, rfl, ?_⟩
    cases hw : Token.word w <;> simp_all [Token.isFlat, Token.closesBracket]

theorem scan_ofWords {lines : List (List String)}
    (hwords : ∀ line ∈ lines, line ≠ [] ∧ ∀ w ∈ line, Token.isPlainWord w = true)
    (tabWidth : Nat) :
    ∃ (toks : List Lexeme) (eof : Lexeme), eof.token = .eof ∧
      Lexeme.scan tabWidth (ofWords lines) = ⟨toks ++ [eof], []⟩ ∧
      Layout.Lines 1 ((lines.map (·.map Token.word)).map (Layout.Line.mk 0)) toks ∧
      ∀ tok ∈ toks, tok.token ≠ .eof ∧ tok.token.isComment = false := by
  have hspells : List.Forall₂ Lexeme.SpellsLine
      (lines.map fun line => (" ".intercalate line).toList)
      ((lines.map (·.map Token.word)).map (Layout.Line.mk 0)) := by
    rw [List.forall₂_map_left_iff, List.forall₂_map_right_iff, List.forall₂_map_right_iff]
    refine List.forall₂_same.2 fun line hline => ?_
    obtain ⟨hne, hplain⟩ := hwords line hline
    exact spellsLine_words hplain hne
  obtain ⟨toks, m, hscan, hlines, hreal⟩ :=
    Lexeme.scanFrom_lines hspells tabWidth (m := .start) rfl rfl
  refine ⟨toks, ⟨.eof, .point m.offset, m.line, m.column, false⟩, rfl, ?_, hlines, hreal⟩
  have htext : (ofWords lines).toList =
      (lines.map fun line => (" ".intercalate line).toList).flatMap (· ++ ['\n']) := by
    simp [ofWords, List.flatMap_map]
  rw [Lexeme.scan, htext, hscan, Lexeme.scanFrom]
  rfl

/-- A text of plain words parses without problems to what its lines are written
for, up to spans. -/
theorem parse_ofWords {lines : List (List String)} {ds : List (Decl Concrete.Expr)}
    {rs : List (Decl Expr)} (hlevels : 0 < options.maxNesting)
    (hwords : ∀ line ∈ lines, line ≠ [] ∧ ∀ w ∈ line, Token.isPlainWord w = true)
    (hds : ∀ d ∈ ds, Concrete.Decl.WellFormed options.maxPrecedence (options.maxNesting - 1) d)
    (hwritten : ds.map (Concrete.declTokens (.marked .blockSep) (.marked .blockSep)) =
      lines.map (·.map Token.word))
    (hresolve : Fixity.resolveFile options.maxNesting ds = (rs, [])) :
    ∃ rs', parse options (ofWords lines) = ⟨⟨span (ofWords lines), rs'⟩, []⟩ ∧
      rs'.map bareDecl = rs.map bareDecl := by
  obtain ⟨toks, eof, heof, hscan, hlines, hreal⟩ := scan_ofWords hwords options.tabWidth
  have hflat : ∀ ts ∈ lines.map (·.map Token.word), ∀ t ∈ ts, t.isFlat = true := by
    intro ts hts t ht
    obtain ⟨line, hline, rfl⟩ := List.mem_map.1 hts
    obtain ⟨w, hw, rfl⟩ := List.mem_map.1 ht
    exact (Token.of_isPlainWord ((hwords line hline).2 w hw)).2.2
  obtain ⟨out, hlayout, hout, hjoined⟩ := Layout.resolve_flat hflat hlines hreal heof
  have htokens : (out ++ [eof]).map (·.token) =
      Concrete.fileTokens (.marked .blockSep) (.marked .blockSep) ds ++ [Token.eof] := by
    rw [List.map_append, hout, List.map_singleton, heof, ← hwritten, Concrete.fileTokens,
      Concrete.declsTokens_eq]
  obtain ⟨hspaced, hahead⟩ := Parser.ofLexemes_concat htokens hjoined
  obtain ⟨concrete, hfile, hbare, -⟩ := Parser.file_written rfl rfl hlevels hds hspaced hahead
  obtain ⟨decls, hresolve, hsame⟩ := Fixity.resolveFile_eq_of_bare hbare hresolve
  exact ⟨decls, parse_eq hscan hlayout hfile hresolve, hsame⟩

end Source

namespace Fixity

/-! ## Long chains -/

/-- Operands side by side are applications. -/
theorem Chain.build_operands (fn : Expr) (args : List Expr) (pieces : List Piece) :
    build fn (args.map .operand ++ pieces) = build (args.foldl Expr.apply fn) pieces := by
  induction args generalizing fn with
  | nil => rfl
  | cons arg args ih =>
    rw [List.map_cons, List.cons_append, build, ih]
    rfl

/-- Operators with an operand after each of them are the links of a chain. -/
theorem Chain.build_links (operand : Expr) (links : List (Operator × Expr)) :
    build operand (links.flatMap fun link => [.operator link.1, .operand link.2]) =
      .ok ⟨operand, links⟩ := by
  induction links generalizing operand with
  | nil => rfl
  | cons link links ih =>
    rw [List.flatMap_cons, List.cons_append, List.cons_append, List.nil_append, build, ih]
    rfl

/-- The operator `op` between `operand` and `count` times `next`, to the left. -/
def Grouping.leftward (op : Operator) (operand next : Expr) : (count : Nat) → Grouping
  | 0 => .operand operand
  | count + 1 => .operation op (leftward op operand next count) (.operand next)

namespace Grouping

variable {op : Operator} {operand next : Expr} {count : Nat}

@[simp] theorem head_leftward : (leftward op operand next count).head = operand := by
  induction count with
  | zero => rfl
  | succ count ih => exact ih

@[simp] theorem links_leftward :
    (leftward op operand next count).links = List.replicate count (op, next) := by
  induction count with
  | zero => rfl
  | succ count ih => rw [leftward, links, ih, List.replicate_succ']; rfl

theorem respects_leftward (hop : op.fixity.assoc = .left) :
    (leftward op operand next count).Respects := by
  induction count with
  | zero => exact .operand
  | succ count ih =>
    refine .operation (fun o ho => ?_) nofun ih .operand
    cases count with
    | zero => cases ho
    | succ count =>
      obtain rfl : op = o := Option.some.inj ho
      exact .inr ⟨rfl, hop, hop⟩

theorem rightEdges_leftward : (leftward op operand next count).rightEdges ≤ 1 := by
  induction count with
  | zero => exact Nat.zero_le 1
  | succ count ih => exact Nat.max_le.2 ⟨ih, Nat.le_refl _⟩

end Grouping

/-- A chain of one operator to the left needs one level. -/
theorem Chain.group_replicate {op : Operator} (hop : op.fixity.assoc = .left) (operand next : Expr)
    (count budget : Nat) :
    group (budget + 1) ⟨operand, List.replicate count (op, next)⟩ =
      .ok (Grouping.leftward op operand next count).expr := by
  have hclimbed : (Grouping.leftward op operand next count).Climbed :=
    (Grouping.respects_leftward hop).climbed
  have hgathered := hclimbed.gathered_eq
    (Nat.le_trans Grouping.rightEdges_leftward (Nat.le_add_left 1 budget))
  rw [Grouping.head_leftward, Grouping.links_leftward] at hgathered
  rw [group_eq, hgathered]
  rfl

/-- A run of one operand. -/
theorem groupPieces_operand (budget : Nat) (span : Span) (e : Expr) :
    groupPieces budget span [.operand e] = pure e := by
  have hgroup : Chain.group budget ⟨e, []⟩ = .ok e := by
    rw [Chain.group_eq, Chain.gathered_nil]
    rfl
  rw [groupPieces_eq]
  exact congrArg Report.raise hgroup

/-- A run of an application to many arguments and many operators after it. -/
theorem groupPieces_replicate {op : Operator} (hop : op.fixity.assoc = .left) (fn arg next : Expr)
    (count budget : Nat) (span : Span) :
    groupPieces (budget + 1) span (Piece.operand fn :: List.replicate count (Piece.operand arg) ++
        (List.replicate count [Piece.operator op, Piece.operand next]).flatten) =
      pure (Grouping.leftward op ((List.replicate count arg).foldl Expr.apply fn) next count).expr := by
  have hargs : List.replicate count (Piece.operand arg) =
      (List.replicate count arg).map Piece.operand := List.map_replicate.symm
  have hlinks : (List.replicate count [Piece.operator op, Piece.operand next]).flatten =
      (List.replicate count (op, next)).flatMap fun link =>
        [Piece.operator link.1, Piece.operand link.2] := by
    rw [List.flatMap_replicate]
  rw [groupPieces_eq, List.cons_append, Chain.ofPieces, hargs, hlinks, Chain.build_operands,
    Chain.build_links]
  exact congrArg Report.raise (Chain.group_replicate hop _ _ count budget)

/-- A chain of applications is as high as it is long, where steps to functions count. -/
theorem le_height_apply {counted : Counted} (h : counted.functions = true) (fn : Expr)
    (args : List Expr) : args.length ≤ (args.foldl Expr.apply fn).height counted := by
  induction args using List.reverseRecOn with
  | nil => exact Nat.zero_le _
  | append_singleton args arg ih =>
    rw [List.foldl_append, List.length_append, List.foldl_cons, List.foldl_nil, Expr.apply,
      Expr.height, h]
    exact Nat.le_trans (Nat.add_le_add_right ih 1) (Nat.le_max_left _ _)

/-- A chain to the left is as high as it is long, where steps to the left count. -/
theorem Grouping.le_height_leftward {counted : Counted} (h : counted.lefts = true) (op : Operator)
    (operand next : Expr) (count : Nat) :
    count ≤ (leftward op operand next count).expr.height counted := by
  induction count with
  | zero => exact Nat.zero_le _
  | succ count ih =>
    rw [leftward, expr, Expr.operate, Expr.height, h]
    exact Nat.le_trans (Nat.add_le_add_right ih 1) (Nat.le_max_left _ _)

/-- A chain is at least as high as its first operand. -/
theorem Grouping.head_le_height_leftward {counted : Counted} (op : Operator) (operand next : Expr)
    (count : Nat) :
    operand.height counted ≤ (leftward op operand next count).expr.height counted := by
  induction count with
  | zero => exact Nat.le_refl _
  | succ count ih =>
    rw [leftward, expr, Expr.operate, Expr.height]
    exact Nat.le_trans (Nat.le_add_right_of_le ih) (Nat.le_max_left _ _)

end Fixity

namespace Source

/-! ## A family of high trees -/

/-- The words of `f a … a + b … + b`, with as many arguments and operators as
`count` says. -/
def chainWords (count : Nat) : List String :=
  "f" :: List.replicate count "a" ++ (List.replicate count ["+", "b"]).flatten

/-- The lines of a text whose tree has a chain of applications and one of
operators to the left. -/
def chainLines (count : Nat) : List (List String) :=
  [["infixl", "0", "+"], "x" :: "=" :: chainWords count]

theorem mem_chainWords {count : Nat} {w : String} (h : w ∈ chainWords count) :
    w ∈ ["f", "a", "+", "b"] := by
  simp only [chainWords, List.cons_append, List.mem_cons, List.mem_append, List.mem_replicate,
    List.mem_flatten] at h
  obtain rfl | ⟨-, rfl⟩ | ⟨_, ⟨-, rfl⟩, h⟩ := h
  · simp
  · simp
  · simp only [List.mem_cons, List.not_mem_nil, or_false] at h
    obtain rfl | rfl := h <;> simp

theorem isPlainWord_chainLines (count : Nat) :
    ∀ line ∈ chainLines count, line ≠ [] ∧ ∀ w ∈ line, Token.isPlainWord w = true := by
  have hchain : ∀ w ∈ ["f", "a", "+", "b"], Token.isPlainWord w = true := by decide +kernel
  rw [chainLines, List.forall_mem_cons, List.forall_mem_singleton]
  refine ⟨⟨by simp, by decide +kernel⟩, by simp, ?_⟩
  rw [List.forall_mem_cons, List.forall_mem_cons]
  exact ⟨by decide +kernel, by decide +kernel, fun w hw => hchain w (mem_chainWords hw)⟩

/-! ## Runs of names -/

/-- A leaf that is a name, at no place in particular. -/
def nameLeaf (text : String) : Leaf := .name (.simple ⟨text, default⟩)

/-- Names side by side. -/
def nameRun (words : List String) : Concrete.Expr :=
  .run default (words.map fun w => .leaf (nameLeaf w))

theorem wellFormed_nameRun {limit levels : Nat} {words : List String} (hne : words ≠ []) :
    Concrete.Expr.WellFormed limit (levels + 1) (nameRun words) := by
  refine .run (.of_isTail (by simpa using hne) ?_) ?_
  · intro a ha
    obtain ⟨w, -, rfl⟩ := List.mem_map.1 ha
    rfl
  · intro a ha
    obtain ⟨w, -, rfl⟩ := List.mem_map.1 ha
    refine .leaf fun q hq => ?_
    obtain rfl : QualifiedName.simple ⟨w, default⟩ = q := Leaf.name.inj hq
    exact List.cons_ne_nil _ _

theorem exprTokens_nameRun (s : Style) (words : List String) :
    Concrete.exprTokens s (nameRun words) = words.map Token.ident := by
  rw [nameRun, Concrete.exprTokens, Concrete.atomsTokens_eq, List.flatMap_map, List.map_eq_flatMap]
  simp only [Concrete.atomTokens]
  rfl

/-- The piece that a name is in a run. -/
def namePiece (table : Fixity.Table) (text : String) : Fixity.Piece :=
  match Fixity.operator? table (.leaf (nameLeaf text)) with
  | some op => .operator op
  | none => .operand (.leaf (nameLeaf text))

theorem resolvePiece_name (limit : Nat) (table : Fixity.Table) (levels : Nat) (text : String) :
    Fixity.resolvePiece limit table levels (.leaf (nameLeaf text)) = pure (namePiece table text) := by
  rw [Fixity.resolvePiece, namePiece, Fixity.resolveAtom]
  cases Fixity.operator? table (.leaf (nameLeaf text)) <;> rfl

theorem resolveExpr_nameRun (limit : Nat) (table : Fixity.Table) (levels : Nat)
    (words : List String) :
    Fixity.resolveExpr limit table (levels + 1) (nameRun words) =
      Fixity.groupPieces levels default (words.map (namePiece table)) := by
  have hatoms : Fixity.resolveAtoms limit table levels (words.map fun w => .leaf (nameLeaf w)) =
      pure (words.map (namePiece table)) := by
    induction words with
    | nil => rw [List.map_nil, Fixity.resolveAtoms]; rfl
    | cons w words ih =>
      rw [List.map_cons, Fixity.resolveAtoms_cons, resolvePiece_name, ih]
      rfl
  rw [nameRun, Fixity.resolveExpr_run, Fixity.resolveRun, hatoms]
  rfl

/-! ## The declarations of the family -/

/-- What `chainLines` are written for. -/
def chainDecls (count : Nat) : List (Decl Concrete.Expr) :=
  [.fixity default ⟨.left, 0⟩ [⟨"+", default⟩],
    .clause default [nameRun ["x"]] false [] none (some (nameRun (chainWords count))) []]

/-- The right side of the clause in `chainLines`. -/
def chainExpr (count : Nat) : Expr :=
  (Fixity.Grouping.leftward ⟨⟨"+", default⟩, ⟨.left, 0⟩⟩
    ((List.replicate count (.leaf (nameLeaf "a"))).foldl Expr.apply (.leaf (nameLeaf "f")))
    (.leaf (nameLeaf "b")) count).expr

theorem wellFormed_chainDecls (limit levels count : Nat) :
    ∀ d ∈ chainDecls count, Concrete.Decl.WellFormed limit (levels + 1) d := by
  rw [chainDecls, List.forall_mem_cons, List.forall_mem_singleton]
  refine ⟨.fixity (Nat.zero_le _) (by decide) (by simp), ?_⟩
  refine .clause rfl (wellFormed_nameRun (by simp)) (by simp) (by simp) ?_ (.inr rfl) (by simp)
    (by simp)
  intro e he
  obtain rfl := Option.some.inj he
  exact wellFormed_nameRun (by simp [chainWords])

theorem tokens_chainDecls (count : Nat) :
    (chainDecls count).map (Concrete.declTokens (.marked .blockSep) (.marked .blockSep)) =
      (chainLines count).map (·.map Token.word) := by
  have hfixity : Concrete.declTokens (.marked .blockSep) (.marked .blockSep)
      (.fixity default ⟨.left, 0⟩ [⟨"+", default⟩]) = ["infixl", "0", "+"].map Token.word := by
    rw [Concrete.declTokens]
    decide +kernel
  have hclause : Concrete.declTokens (.marked .blockSep) (.marked .blockSep)
      (.clause default [nameRun ["x"]] false [] none (some (nameRun (chainWords count))) []) =
      [Token.ident "x", .equals] ++ (chainWords count).map Token.ident := by
    simp [Concrete.declTokens, Concrete.optionTokens, exprTokens_nameRun]
  have hfront : [Token.ident "x", .equals] = ["x", "="].map Token.word := by decide +kernel
  have hchain : (chainWords count).map Token.ident = (chainWords count).map Token.word := by
    have hnames : ∀ w ∈ ["f", "a", "+", "b"], Token.ident w = Token.word w := by decide +kernel
    exact List.map_congr_left fun w hw => hnames w (mem_chainWords hw)
  rw [chainDecls, chainLines, List.map_cons, List.map_singleton, hfixity, hclause, hfront, hchain]
  rfl

theorem resolveFile_chainDecls (levels count : Nat) :
    Fixity.resolveFile (levels + 2) (chainDecls count) =
      ([.fixity default ⟨.left, 0⟩ [⟨"+", default⟩],
        .clause default [.leaf (nameLeaf "x")] false [] none (some (chainExpr count)) []], []) := by
  let table : Fixity.Table := ⟨[[⟨"+", ⟨.left, 0⟩, default⟩]]⟩
  have hfixity : Fixity.resolveDecl (levels + 2) table (levels + 2)
      (.fixity default ⟨.left, 0⟩ [⟨"+", default⟩]) =
      pure (.fixity default ⟨.left, 0⟩ [⟨"+", default⟩]) := by
    rw [Fixity.resolveDecl]
  have hpatterns : Fixity.resolvePatterns (levels + 2) table (levels + 2) [nameRun ["x"]] =
      pure [.leaf (nameLeaf "x")] := by
    have hleft : Fixity.resolveExpr (levels + 2) table (levels + 2) (nameRun ["x"]) =
        pure (.leaf (nameLeaf "x")) :=
      (resolveExpr_nameRun _ _ _ _).trans (Fixity.groupPieces_operand _ _ _)
    rw [Fixity.resolvePatterns, hleft, Fixity.resolvePatterns]
    rfl
  -- The `where` block of the clause is empty, and its scope is a scope all the same.
  have hinside : Report.noted (table.enter ([] : List (Decl Concrete.Expr))) =
      pure ⟨[] :: table.scopes⟩ := rfl
  have hright : Fixity.resolveExpr (levels + 2) ⟨[] :: table.scopes⟩ (levels + 2)
      (nameRun (chainWords count)) = pure (chainExpr count) := by
    rw [resolveExpr_nameRun, chainWords, List.map_append, List.map_cons, List.map_replicate,
      List.map_flatten, List.map_replicate]
    exact Fixity.groupPieces_replicate rfl _ _ _ _ _ _
  have hclause : Fixity.resolveDecl (levels + 2) table (levels + 2)
      (.clause default [nameRun ["x"]] false [] none (some (nameRun (chainWords count))) []) =
      pure (.clause default [.leaf (nameLeaf "x")] false [] none (some (chainExpr count)) []) := by
    apply Report.value?_eq_some_iff.1
    rw [Fixity.value?_resolveDecl_clause, hpatterns, hinside, Fixity.resolvePatterns]
    simp only [Fixity.resolveDecls, Fixity.resolveOption, hright, Report.value?_pure,
      Report.value?_map, Option.bind_some, Option.map_some]
    rfl
  have htable : Fixity.Table.empty.enter (chainDecls count) = (table, []) := rfl
  rw [Fixity.resolveFile, htable]
  simp only [chainDecls, Fixity.resolveDecls, hfixity, hclause]
  rfl

/-! ## The heights of the family -/

/-- The tree of `chainLines` is as high as its chains are long, where steps along
one of them count. -/
theorem le_height_chainLines {options : Options} (h : 2 ≤ options.maxNesting) {counted : Counted}
    (hcounted : counted.functions = true ∨ counted.lefts = true) (count : Nat) :
    count ≤ (parse options (ofWords (chainLines count))).file.height counted := by
  obtain ⟨levels, hlevels⟩ := Nat.exists_eq_add_of_le' h
  have hds := wellFormed_chainDecls options.maxPrecedence levels count
  have hresolve := resolveFile_chainDecls levels count
  rw [← hlevels] at hresolve
  obtain ⟨rs, hparse, hbare⟩ := parse_ofWords (Nat.lt_of_lt_of_le (by decide) h)
    (isPlainWord_chainLines count) (by rwa [hlevels]) (tokens_chainDecls count) hresolve
  have hheight : count ≤ (chainExpr count).height counted := by
    rcases hcounted with hfunctions | hlefts
    · have hargs := Fixity.le_height_apply hfunctions (.leaf (nameLeaf "f"))
        (List.replicate count (.leaf (nameLeaf "a")))
      rw [List.length_replicate] at hargs
      exact Nat.le_trans hargs (Fixity.Grouping.head_le_height_leftward _ _ _ _)
    · exact Fixity.Grouping.le_height_leftward hlefts _ _ _ _
  rw [hparse, File.height_eq_of_bare (g := ⟨default, _⟩) hbare, File.height]
  simp only [declsHeight, declHeight, optionHeight]
  omega

/-- No bound on the height by the nesting limit alone holds where steps along one
of the two kinds of chain count. -/
theorem not_bounded {counted : Counted}
    (hcounted : counted.functions = true ∨ counted.lefts = true) :
    ¬ ∃ bound : Nat → Nat, ∀ options source,
      (parse options source).file.height counted ≤ bound options.maxNesting := by
  rintro ⟨bound, hbound⟩
  let options : Options := { maxNesting := 2 }
  have hle := hbound options (ofWords (chainLines (bound 2 + 1)))
  have hge := le_height_chainLines (Nat.le_refl options.maxNesting) hcounted (bound 2 + 1)
  exact absurd (Nat.le_trans hge hle) (Nat.not_succ_le_self _)

/-- The nesting limit alone does not bound the height: not with all steps
counted, and not with those along one kind of chain. -/
theorem height_unbounded :
    (¬ ∃ bound : Nat → Nat, ∀ options source,
      (parse options source).file.height .all ≤ bound options.maxNesting) ∧
    (¬ ∃ bound : Nat → Nat, ∀ options source,
      (parse options source).file.height ⟨true, false⟩ ≤ bound options.maxNesting) ∧
    ¬ ∃ bound : Nat → Nat, ∀ options source,
      (parse options source).file.height ⟨false, true⟩ ≤ bound options.maxNesting :=
  ⟨not_bounded (.inl rfl), not_bounded (.inl rfl), not_bounded (.inr rfl)⟩

end Source

end Offside
