-- SUMMARY: The surface form of a tree is scanned and laid out as the tree in writing.
import Offside.Proofs.Expr.Printed
import Offside.Proofs.Fixity.Conserves

/-! # Printed trees

What a well-formed tree resolves to is printed as itself: the surface form of
every expression and every declaration spells its tokens, in one line and in
lines. -/

namespace Offside

theorem forall_of_forall₂ {α β : Type} {R : α → β → Prop} {P : β → Prop} {as : List α} {bs : List β}
    (h : List.Forall₂ R as bs) (hP : ∀ a ∈ as, ∀ b, R a b → P b) : ∀ b ∈ bs, P b := by
  induction h with
  | nil => exact List.forall_mem_nil _
  | cons hab _ ih =>
    obtain ⟨hfirst, hothers⟩ := List.forall_mem_cons.1 hP
    exact List.forall_mem_cons.2 ⟨hfirst _ hab, ih hothers⟩

theorem forall_of_optionRel {α β : Type} {P : β → Prop} {o : Option α} {r : Option β}
    (h : Option.Rel (fun _ b => P b) o r) : ∀ b ∈ r, P b := by
  cases h with
  | none => simp
  | some hb => simpa using hb

/-! ## Declarations as items -/

theorem DeclText.inline_none (head : String) : inline ⟨head, none⟩ = head := rfl

theorem DeclText.inline_some (head : String) (items : List String) :
    inline ⟨head, some items⟩ = head ++ " where" ++ braced items := rfl

theorem Style.arrange_braces (ms : List (Nat × List Token)) : braces.arrange ms = ms.map (·.2) := rfl

theorem Style.arrange_marked (sep : Token) (ms : List (Nat × List Token)) :
    (marked sep).arrange ms = ms.map (·.2) := rfl

theorem declItem_dataType (span : Span) (h : Header Expr) (gs : List (Signature Expr)) :
    declItem (.dataType span h gs) = .block ("data " ++ printHeader h) (.kwData :: writeHeader .braces h)
      (.kwData :: writeHeader (.marked .semicolon) h) (gs.map signatureItem) := by
  ext1 <;> simp [printInline, printDecl, DeclText.inline_some, Decl.lines, writeDecl, writeSignatures_eq,
    signatureItem, Function.comp_def, List.flatMap_map, ← List.map_eq_flatMap]

theorem declItem_emptyData (span : Span) (h : Header Expr) :
    declItem (.emptyData span h) = .line ("data " ++ printHeader h) (.kwData :: writeHeader .braces h)
      (.kwData :: writeHeader (.marked .semicolon) h) := by
  ext1 <;> simp [printInline, printDecl, DeclText.inline_none, Decl.lines, writeDecl]

theorem declItem_recordType (span : Span) (h : Header Expr) (builder : Option Name)
    (fields : List (Signature Expr)) (decls : List (Decl Expr)) :
    declItem (.recordType span h builder fields decls) = .block ("record " ++ printHeader h)
      (.kwRecord :: writeHeader .braces h) (.kwRecord :: writeHeader (.marked .semicolon) h)
      (builder.toList.map builderItem ++ fields.map fieldItem ++ decls.map declItem) := by
  ext1
  case inline =>
    rw [declItem_inline, printInline, printDecl]
    simp [DeclText.inline_some, builderItem, fieldItem, Function.comp_def]
  all_goals simp [printDecl, Decl.lines, writeDecl_recordType, Style.arrange_braces,
    Style.arrange_marked, writeMembers, builderItem, fieldItem, Function.comp_def, List.flatMap_map,
    ← List.map_eq_flatMap]

theorem declItem_moduleBlock (span : Span) (name : QualifiedName) (params : List (Param Expr))
    (decls : List (Decl Expr)) :
    declItem (.moduleBlock span name params decls) =
      .block ("module " ++ " ".intercalate (name.text :: params.map printParam))
        (.kwModule :: (name.tokens ++ params.flatMap (writeParam .braces)))
        (.kwModule :: (name.tokens ++ params.flatMap (writeParam (.marked .semicolon))))
        (decls.map declItem) := by
  ext1
  case inline =>
    rw [declItem_inline, printInline, printDecl]
    simp [DeclText.inline_some, Function.comp_def]
  all_goals simp [printDecl, Decl.lines, writeDecl, writeParams_eq, writeDecls_eq, Function.comp_def,
    List.flatMap_map]

theorem declItem_importModule (span : Span) (kind : ImportKind) (name : QualifiedName) :
    declItem (.importModule span kind name) =
      .line (kind.text ++ " " ++ name.text) (kind.tokens ++ name.tokens)
        (kind.tokens ++ name.tokens) := by
  ext1 <;> simp [printInline, printDecl, DeclText.inline_none, Decl.lines, writeDecl]

theorem declItem_ascription (g : Signature Expr) : declItem (.ascription g) = signatureItem g := by
  cases g
  ext1 <;> simp [signatureItem, printInline, printDecl, DeclText.inline_none, Decl.lines, writeDecl,
    printSignature, writeSignature]

theorem declItem_fixity (span : Span) (fixity : Fixity) (operators : List Name) :
    declItem (.fixity span fixity operators) = .line (fixity.text ++ " " ++ Name.listText operators)
      (.kwFixity fixity.assoc :: .integer (.ofNat fixity.precedence) :: operators.map Name.token)
      (.kwFixity fixity.assoc :: .integer (.ofNat fixity.precedence) :: operators.map Name.token) := by
  ext1 <;> simp [printInline, printDecl, DeclText.inline_none, Decl.lines, writeDecl]

/-- What stands before the block of a clause. -/
def clauseHead (r : Expr) (ws : List Expr) (w rhs : Option Expr) : String :=
  r.print ++ String.join (ws.map (" | " ++ ·.print)) ++ printOption " with " w ++ printOption " = " rhs

/-- The same in writing. -/
def clauseTokens (s : Style) (r : Expr) (ws : List Expr) (w rhs : Option Expr) : List Token :=
  r.tokens s ++ ws.flatMap (.pipe :: ·.tokens s) ++ writeOption s .kwWith w ++ writeOption s .equals rhs

theorem spine_ne_nil (e : Expr) : e.spine ≠ [] := by
  cases e <;> simp [Expr.spine]

theorem print_spine (e : Expr) : " ".intercalate (e.spine.map Expr.print) = e.print := by
  fun_induction Expr.spine e with
  | case1 _ fn arg ih =>
    rw [Expr.print, ← ih, List.map_append, String.intercalate_append_of_ne_nil (by simp [spine_ne_nil])
      (by simp)]
    simp
  | case2 e => simp

/-- The left-hand side of a clause is taken apart, and reads as before. -/
theorem leftSide_leftHandSide (e : Expr) :
    leftSide (Fixity.leftHandSide e).2 ((Fixity.leftHandSide e).1.map Expr.print) = e.print := by
  unfold Fixity.leftHandSide
  split
  · simp [leftSide, Expr.print, Leaf.text, QualifiedName.simple, QualifiedName.text, String.append_assoc]
  · rw [leftSide, print_spine]
    simp

theorem declItem_clause (span : Span) (r : Expr) (ws : List Expr) (w rhs : Option Expr)
    (locals : List (Decl Expr)) :
    declItem (.clause span (Fixity.leftHandSide r).1 (Fixity.leftHandSide r).2 ws w rhs locals) =
      if locals.isEmpty then
        .line (clauseHead r ws w rhs) (clauseTokens .braces r ws w rhs)
          (clauseTokens (.marked .semicolon) r ws w rhs)
      else .block (clauseHead r ws w rhs) (clauseTokens .braces r ws w rhs)
        (clauseTokens (.marked .semicolon) r ws w rhs) (locals.map declItem) := by
  have hleft : ∀ s, leftTokens (Fixity.leftHandSide r).2
      ((Fixity.leftHandSide r).1.map (Expr.tokens s)) = r.tokens s := by
    intro s
    rw [← writeExprs_eq, Fixity.leftHandSide_tokens]
  cases locals with
  | nil =>
    ext1 <;> simp [printInline, printDecl, DeclText.inline_none, Decl.lines, writeDecl, clauseHead,
      clauseTokens, leftSide_leftHandSide, hleft, writeExprs_eq, Function.comp_def, List.flatMap_def]
  | cons d ds =>
    ext1
    case inline =>
      rw [declItem_inline, printInline, printDecl]
      simp [DeclText.inline_some, clauseHead, leftSide_leftHandSide, Function.comp_def]
    case lines =>
      simp [printDecl, Decl.lines, clauseHead, leftSide_leftHandSide, Function.comp_def, List.flatMap_map]
    all_goals simp [writeDecl, clauseTokens, hleft, writeExprs_eq, writeDecls_eq, Function.comp_def,
      List.flatMap_def]

/-! ## Trees -/

theorem Prints.pipes {a : String} {ts us : List Token} (ha : Prints a ts us) {es : List Expr}
    (h : ∀ e ∈ es, ExprPrints e) : Prints (a ++ String.join (es.map (" | " ++ ·.print)))
      (ts ++ es.flatMap (.pipe :: ·.tokens .braces))
      (us ++ es.flatMap (.pipe :: ·.tokens (.marked .semicolon))) := by
  induction es generalizing a ts us with
  | nil => simpa using ha
  | cons e es ih =>
    obtain ⟨he, hes⟩ := List.forall_mem_cons.1 h
    have hpipe : Prints "|" [.pipe] [.pipe] := .word (by simp [Token.reserved]) rfl rfl
    have hfirst : Prints (a ++ " | " ++ e.print) _ _ := ha.between hpipe he (by simp)
    have hall := ih hfirst hes
    rw [List.append_assoc, List.append_assoc] at hall
    refine hall.of_toList ?_
    simp

theorem prints_clause {r : Expr} {ws : List Expr} {w rhs : Option Expr} (hr : ExprPrints r)
    (hws : ∀ e ∈ ws, ExprPrints e) (hw : ∀ e ∈ w, ExprPrints e) (hrhs : ∀ e ∈ rhs, ExprPrints e) :
    Prints (clauseHead r ws w rhs) (clauseTokens .braces r ws w rhs)
      (clauseTokens (.marked .semicolon) r ws w rhs) := by
  have hwith : Prints "with" [.kwWith] [.kwWith] := .word (by simp [Token.reserved]) rfl rfl
  exact ((hr.pipes hws).option hwith (by simp) hw).option prints_equals (by simp) hrhs

/-- No pattern begins with a token that would end an item, or begin none. -/
theorem leads_pattern {s : Style} : ∀ {e : Expr}, Fixity.ensurePattern e = .ok () → Leads (e.tokens s)
  | .leaf l, _ => by
    rw [Expr.tokens]
    cases l with
    | name q =>
      obtain ⟨span, segments⟩ := q
      cases segments with
      | nil => exact .nil
      | cons n ns =>
        rw [Leaf.tokens, QualifiedName.tokens_cons]
        exact .name n _
    | hole | unit | type | integer => exact .cons (by simp [Token.closesBracket])
  | .paren _ e, _ => by
    rw [Expr.tokens]
    exact .cons (by simp [Token.closesBracket])
  | .record _ builder fields, _ => by
    rw [Expr.tokens]
    exact .cons (by simp [Token.closesBracket])
  | .app _ fn arg, h => by
    rw [Expr.tokens]
    cases hfn : Fixity.ensurePattern fn with
    | error d => simp [Fixity.ensurePattern, hfn, bind, Except.bind] at h
    | ok =>
      have harg : Fixity.ensurePattern arg = .ok () := by
        simpa [Fixity.ensurePattern, hfn, bind, Except.bind] using h
      exact (leads_pattern hfn).append (leads_pattern harg)
  | .operation _ operator left right, h => by
    rw [Expr.tokens]
    cases hleft : Fixity.ensurePattern left with
    | error d => simp [Fixity.ensurePattern, hleft, bind, Except.bind] at h
    | ok => exact (leads_pattern hleft).append (.name operator _)
  | .arrow .., h | .pi .., h | .bind .., h | .letIn .., h => by
    simp [Fixity.ensurePattern, Fixity.ensurePattern.notAPattern] at h

theorem leads_option {s : Style} {t : Token} {o : Option Expr}
    (h : t ≠ .lbrace ∧ t ≠ .kwIn ∧ t.closesBracket = false) : Leads (writeOption s t o) := by
  cases o with
  | none => exact .nil
  | some e => exact .cons h

namespace Fixity

theorem Grouped.prints {pieces : List Piece} {r : Expr} (h : Grouped pieces r)
    (hpieces : ∀ e, .operand e ∈ pieces → ExprPrints e) : ExprPrints r := by
  induction h with
  | operand e => exact hpieces e List.mem_cons_self
  | apply arg _ _ ih =>
    have hfn := ih fun e he => hpieces e (List.mem_append_left _ he)
    have harg := hpieces arg (List.mem_append_right _ List.mem_cons_self)
    rw [ExprPrints, Expr.apply, Expr.print, Expr.tokens, Expr.tokens]
    exact hfn.blank harg
  | operate op _ _ ih₁ ih₂ =>
    have hleft := ih₁ fun e he => hpieces e (List.mem_append_left _ he)
    have hright := ih₂ fun e he => hpieces e (List.mem_append_right _ (List.mem_cons_of_mem _ he))
    rw [ExprPrints, Expr.operate, Expr.print, Expr.tokens, Expr.tokens]
    refine (hleft.blank ((Prints.name op.name).blank hright)).of_toList ?_
    simp

/-- What holds of everything that atoms resolve to holds of the operands of a run. -/
theorem operand_of_forall₂ {P : Expr → Prop} {atoms : List Concrete.Atom} {pieces : List Piece}
    (h : List.Forall₂ (PieceOf fun _ r => P r) atoms pieces) : ∀ e, .operand e ∈ pieces → P e := by
  intro e he
  have hall : ∀ p ∈ pieces, ∀ e, p = .operand e → P e := by
    refine forall_of_forall₂ h fun a _ p hp => ?_
    cases hp with
    | operand atom =>
      rintro _ ⟨⟩
      exact atom
    | operator => simp
  exact hall _ he e rfl

theorem prints_of_headerRel {header : Header Concrete.Expr} {h : Header Expr}
    (hrel : header.Rel (fun _ r => ExprPrints r) h) (hne : ∀ p ∈ header.params, p.names ≠ []) :
    Prints (printHeader h) (writeHeader .braces h) (writeHeader (.marked .semicolon) h) := by
  refine prints_header ?_ (forall_of_optionRel hrel.type)
  refine forall_of_forall₂ hrel.params fun p hp q hq => ⟨?_, hq.type⟩
  rw [hq.names]
  exact hne p hp

/-- The surface form of what a well-formed tree resolves to prints it. -/
theorem printed (limit : Nat) : Resolution limit (fun _ r => ExprPrints r) (fun _ r => ExprPrints r)
    (fun _ r => DeclPrints r) where
  run _ hpieces hgrouped := hgrouped.prints (operand_of_forall₂ hpieces)
  arrow := by
    intro levels span domain codomain pieces r t _ hpieces hgrouped ht
    have hdomain := hgrouped.prints (operand_of_forall₂ hpieces)
    rw [ExprPrints, Expr.print, Expr.tokens, Expr.tokens]
    exact hdomain.between prints_arrow ht (by simp)
  pi := by
    intro levels span domain codomain params t hwf hdomain ht
    rw [ExprPrints, Expr.print, Expr.tokens, Expr.tokens, printParams_eq, writeParams_eq, writeParams_eq]
    cases hwf with
    | arrow ne_nil _ each _ =>
      have hparams : ∀ p ∈ params, Prints (printParam p) (writeParam .braces p)
          (writeParam (.marked .semicolon) p) := by
        refine forall_of_forall₂ hdomain fun a ha p hp => ?_
        cases hp with
        | param hrel =>
          cases each _ ha with
          | param names _ => exact prints_param (hrel.names ▸ names) hrel.type
      have hne : params ≠ [] := by
        rintro rfl
        exact ne_nil (List.forall₂_nil_right_iff.1 hdomain)
      exact (Prints.unwords hparams hne).between prints_arrow ht (by simp)
  bind := by
    intro levels span binder bindings body bs r hwf hbs hr
    rw [ExprPrints, Expr.print, Expr.tokens, Expr.tokens, printBindings_eq, writeBindings_eq,
      writeBindings_eq]
    cases hwf with
    | bind ne_nil names _ _ =>
      have hbindings : ∀ b ∈ bs, Prints (printBinding b) (writeBinding .braces b)
          (writeBinding (.marked .semicolon) b) := by
        refine forall_of_forall₂ hbs fun b hb b' hrel => ?_
        cases hrel with
        | name n => exact .boundName n
        | typed hparam => exact prints_param (hparam.names ▸ names _ hb) hparam.type
      have hne : bs ≠ [] := by
        rintro rfl
        exact ne_nil (List.forall₂_nil_right_iff.1 hbs)
      have hbody : Prints (" ".intercalate (bs.map printBinding) ++ " -> " ++ r.print) _ _ :=
        (Prints.unwords hbindings hne).between prints_arrow hr (by simp)
      cases binder with
      | lambda =>
        refine hbody.backslash.of_toList ?_
        simp [Binder.text]
      | forallType =>
        refine hbody.keyword (w := "forall") (by simp [Token.reserved, Binder.token]) rfl rfl ?_
        simp [Binder.text]
  letIn := by
    intro span decls body rs r hrs hr
    rw [ExprPrints, Expr.print, Expr.tokens, Expr.tokens, printDecls_eq, writeDecls_eq, writeDecls_eq]
    have hblock : Prints ("let" ++ braced (rs.map printInline)) _ _ :=
      .block (t := .kwLet) (by simp [Token.reserved]) rfl fun d hd =>
        (forall_of_forall₂ hrs (fun _ _ _ h => h) d hd).inline
    exact hblock.between prints_in hr (by simp)
  leaf := by
    intro levels l hwf
    rw [ExprPrints, Expr.print, Expr.tokens, Expr.tokens]
    cases hwf with
    | leaf segments => exact .leaf segments
  paren := by
    intro span e r hr
    rw [ExprPrints, Expr.print, Expr.tokens, Expr.tokens]
    exact hr.paren
  record := by
    intro levels span builder fields rs hwf hrs
    rw [ExprPrints, Expr.print, Expr.tokens, Expr.tokens, printAssignments_eq, writeAssignments_eq,
      writeAssignments_eq]
    cases hwf with
    | record segments _ =>
      have hword : Prints "record" [.kwRecord] [.kwRecord] := .word (by simp [Token.reserved]) rfl rfl
      have hbuilder : ∀ q ∈ builder.toList, Prints q.text q.tokens q.tokens :=
        fun q hq => .qualified (segments q (by simpa using hq))
      have hfields : ∀ f ∈ rs, Prints (f.name.text ++ " = " ++ f.value.print) _ _ :=
        fun f hf => prints_assignment (forall_of_forall₂ hrs (fun _ _ _ h => h.value) f hf)
      have hall := (hword.unwordsCons hbuilder).bracketed hfields
      cases builder with
      | none => simpa using hall
      | some q => simpa using hall
  tail hr := hr
  dataType := by
    intro levels span header constructors h gs hwf hheader hgs
    rw [DeclPrints, declItem_dataType]
    cases hwf with
    | dataType names _ _ constructorNames _ =>
      refine Item.printed_block ?_ (.cons (by simp [Token.closesBracket])) ?_
      · exact (prints_of_headerRel hheader names).keyword (w := "data") (by simp [Token.reserved])
          rfl rfl (by simp)
      · rw [List.forall_mem_map]
        exact forall_of_forall₂ hgs fun g hg k hrel =>
          printed_signature (hrel.names ▸ constructorNames g hg) hrel.type
  emptyData := by
    intro levels span header h hwf hheader
    rw [DeclPrints, declItem_emptyData]
    cases hwf with
    | emptyData names _ _ =>
      refine Item.printed_line ?_ (.cons (by simp [Token.closesBracket]))
      exact (prints_of_headerRel hheader names).keyword (w := "data") (by simp [Token.reserved])
        rfl rfl (by simp)
  recordType := by
    intro levels span header builder fields decls h gs rs hwf hheader hgs hrs
    rw [DeclPrints, declItem_recordType]
    cases hwf with
    | recordType names _ _ fieldNames _ _ =>
      refine Item.printed_block ?_ (.cons (by simp [Token.closesBracket])) ?_
      · exact (prints_of_headerRel hheader names).keyword (w := "record") (by simp [Token.reserved])
          rfl rfl (by simp)
      · simp only [List.forall_mem_append, List.forall_mem_map]
        refine ⟨⟨fun n _ => printed_builder n, ?_⟩, forall_of_forall₂ hrs fun _ _ _ h => h⟩
        exact forall_of_forall₂ hgs fun g hg k hrel =>
          printed_field (hrel.names ▸ fieldNames g hg) hrel.type
  moduleBlock := by
    intro levels span name params decls ps rs hwf hps hrs
    rw [DeclPrints, declItem_moduleBlock]
    cases hwf with
    | moduleBlock segments names _ _ =>
      refine Item.printed_block ?_ (.cons (by simp [Token.closesBracket])) ?_
      · have hparams : ∀ p ∈ ps, Prints (printParam p) (writeParam .braces p)
            (writeParam (.marked .semicolon) p) :=
          forall_of_forall₂ hps fun p hp q hrel => prints_param (hrel.names ▸ names p hp) hrel.type
        exact ((Prints.qualified segments).unwordsCons hparams).keyword (w := "module")
          (by simp [Token.reserved]) rfl rfl (by simp)
      · rw [List.forall_mem_map]
        exact forall_of_forall₂ hrs fun _ _ _ h => h
  importModule := by
    intro levels span kind name hwf
    rw [DeclPrints, declItem_importModule]
    cases hwf with
    | importModule segments =>
      have hname := Prints.qualified segments
      have himport := hname.keyword (w := "import") (b := "import " ++ name.text) (t := .kwImport)
        (by simp [Token.reserved]) rfl rfl (by simp)
      cases kind with
      | importOnly => exact Item.printed_line himport (.cons (by simp [Token.closesBracket]))
      | openOnly =>
        refine Item.printed_line ?_ (.cons (by simp [Token.closesBracket]))
        exact hname.keyword (w := "open") (by simp [Token.reserved]) rfl rfl (by simp [ImportKind.text])
      | openImport =>
        refine Item.printed_line ?_ (.cons (by simp [Token.closesBracket]))
        exact himport.keyword (w := "open") (by simp [Token.reserved]) rfl rfl (by simp [ImportKind.text])
  ascription := by
    intro levels signature g hwf hrel
    rw [DeclPrints, declItem_ascription]
    cases hwf with
    | ascription names _ => exact printed_signature (hrel.names ▸ names) hrel.type
  clause := by
    intro span lhs withPatterns withExpr rhs locals r ws w r' rs hr hpattern hws hw hr' hrs
    have hhead : Prints (clauseHead r ws w r') _ _ := prints_clause hr
      (forall_of_forall₂ hws fun _ _ _ h => h) (forall_of_optionRel hw) (forall_of_optionRel hr')
    have hleads : Leads (clauseTokens .braces r ws w r') := by
      rw [clauseTokens, List.append_assoc, List.append_assoc]
      refine (leads_pattern hpattern).append (.append ?_ (.append ?_ ?_))
      · cases ws with
        | nil => exact .nil
        | cons => exact .cons (by simp [Token.closesBracket])
      · exact leads_option (by simp [Token.closesBracket])
      · exact leads_option (by simp [Token.closesBracket])
    rw [DeclPrints, declItem_clause]
    split
    · exact Item.printed_line hhead hleads
    · refine Item.printed_block hhead hleads ?_
      rw [List.forall_mem_map]
      exact forall_of_forall₂ hrs fun _ _ _ h => h
  fixity := by
    intro levels span fixity operators hwf
    rw [DeclPrints, declItem_fixity]
    cases hwf with
    | fixity _ literal operators_ne =>
      refine Item.printed_line ?_ (.cons (by simp [Token.closesBracket]))
      have hprecedence := (Prints.integer literal).blank (Prints.names operators_ne)
      refine hprecedence.keyword (w := fixity.assoc.keyword) ?_ rfl rfl ?_
      · cases fixity.assoc <;> simp [Associativity.keyword, Token.reserved]
      · simp [Fixity.text, toString]

end Fixity

end Offside
