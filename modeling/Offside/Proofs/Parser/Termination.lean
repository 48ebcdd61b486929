-- SUMMARY: Parsing ends on every stream: each production, each repetition and each block goes on or stops.
import Offside.Proofs.Parser.Progress

/-! # Parsing ends

Every production ends from every cursor with plain repetitions, as with checked
ones, and but for a few that may give nothing at all it has read something if it
gives a value (`Production.ends`). So no round of a repetition is without effect,
and the check in `Parser.whileFrom` never stops one. The stream need not come from a
text whose layout has been resolved: that it ends at an end of file is enough. -/

namespace Offside

namespace Parser

variable {c : Cursor} {expected context : String}

/-! ## Names -/

namespace Ends

theorem name (hc : c.eof.token = .eof) :
    Ends (liftM (Parser.name expected)) (Parser.name expected) c fun _ => c.Before := by
  cases ht : c.token with
  | ident text =>
    have hbefore : c.Before c.advance := Cursor.before_advance hc (by rw [ht]; nofun)
    exact of_ok (a := ⟨text, c.current.span⟩) (by simp [Parser.name, ht]) hbefore.toLeads hbefore
  | _ => exact of_fail (d := c.unexpected expected) (by simp [Parser.name, ht])

theorem names (hc : c.eof.token = .eof) :
    Ends (PartialParser.names expected) (Parser.names expected) c fun _ => c.Before := by
  refine (name hc).first hc fun n c₁ hc₁ => ?_
  exact (whileAt hc₁ fun _ hc₂ _ => name hc₂).seq hc₁ fun _ _ _ => .pure trivial

theorem segment (hc : c.eof.token = .eof) :
    Ends (do let _ ← (Parser.advance : Parser Lexeme); Parser.name expected)
      (do let _ ← Parser.advance; Parser.name expected) c fun _ => c.Before :=
  advance.later hc fun _ _ hc₁ => name hc₁

theorem qualifiedName (hc : c.eof.token = .eof) :
    Ends (PartialParser.qualifiedName expected) (Parser.qualifiedName expected) c
      fun _ => c.Before := by
  refine (name hc).first hc fun n c₁ hc₁ => ?_
  exact (whileFrom none hc₁ fun _ _ hc₂ _ => segment hc₂).seq hc₁ fun _ _ _ => .pure trivial

theorem boundName (hc : c.eof.token = .eof) :
    Ends (liftM (Parser.boundName expected)) (Parser.boundName expected) c fun _ => c.Before := by
  cases hat : c.isAt .underscore with
  | true =>
    have hbefore : c.Before c.advance :=
      Cursor.before_advance hc (by rw [token_of_isAt hat]; nofun)
    refine of_ok (a := ⟨"_", c.current.span⟩) ?_ hbefore.toLeads hbefore
    simp [Parser.boundName, look_bind_apply, hat]
    rfl
  | false =>
    have hname : Parser.boundName expected c = Parser.name expected c := by
      simp [Parser.boundName, look_bind_apply, hat]
    have hends : Ends (liftM (Parser.name expected)) (Parser.name expected) c fun _ => c.Before :=
      name hc
    exact .lift (by rw [hname]; exact hends.leads) (by rw [hname]; exact hends.value)

theorem leaf {make : Span → Leaf} (hc : c.eof.token = .eof) (ht : c.token ≠ .eof) :
    Ends (liftM (Inner.leaf make)) (Inner.leaf make) c fun _ => c.Before :=
  of_ok (a := .leaf (make c.current.span)) rfl (Cursor.leads_advance c)
    (Cursor.before_advance hc ht)

theorem precedence {limit : Nat} :
    Ends (liftM (Parser.precedence limit)) (Parser.precedence limit) c fun _ _ => True := by
  refine .lift ?_ fun _ _ => trivial
  rw [Parser.precedence, look_bind_apply]
  cases c.token with
  | integer value =>
    dsimp only
    split <;> exact Cursor.leads_advance c
  | _ => exact .refl c

theorem fixityDeclaration {options : Options} {assoc : Associativity} (hc : c.eof.token = .eof) :
    Ends (PartialParser.fixityDeclaration options assoc) (Parser.fixityDeclaration options assoc) c
      fun _ => c.Before := by
  refine advance.later hc fun keyword c₁ hc₁ => ?_
  refine precedence.later hc₁ fun precedence c₂ hc₂ => ?_
  exact (names hc₂).first hc₂ fun operators c₃ hc₃ => .spanned

theorem importModule (hc : c.eof.token = .eof) :
    Ends PartialParser.importModule Parser.importModule c fun _ => c.Before := by
  refine advance.later hc fun keyword c₁ hc₁ => ?_
  have hname : ∀ {c₂ : Cursor} (kind : ImportKind), c₂.eof.token = .eof → Ends (do
        let kind ← Pure.pure kind
        let name ← PartialParser.qualifiedName "a module name"
        return Decl.importModule (← Parser.spanFrom keyword.span.start) kind name)
      (do
        let kind ← Pure.pure kind
        let name ← Parser.qualifiedName "a module name"
        return (.importModule (← Parser.spanFrom keyword.span.start) kind name :
          Decl Concrete.Expr)) c₂ fun _ => c₂.Before :=
    fun kind hc₂ => (pure (Q := fun _ _ => True) trivial).later hc₂ fun _ _ hc₃ =>
      (qualifiedName hc₃).first hc₃ fun _ _ _ => .spanned
  dsimp only
  split
  · refine eat.later hc₁ fun found c₂ hc₂ => ?_
    cases found <;> exact hname _ hc₂
  · exact hname _ hc₁

end Ends

/-! ## Productions -/

/-- Each call of `calls` ends as that of `inner` does, and has read something if it
gives a value. -/
structure Inner.EndsAs (inner : Inner) (calls : PartialParser.Inner) : Prop where
  expr : ∀ {c}, c.eof.token = .eof → Ends calls.expr inner.expr c fun _ => c.Before
  decls : ∀ {c}, c.eof.token = .eof → Ends calls.decls inner.decls c fun _ => c.Before
  constructors : ∀ {c}, c.eof.token = .eof →
    Ends calls.constructors inner.constructors c fun _ => c.Before
  members : ∀ {c}, c.eof.token = .eof → Ends calls.members inner.members c fun _ => c.Before

section

variable {calls : PartialParser.Inner} {inner : Inner} (h : inner.EndsAs calls)
  (hc : c.eof.token = .eof)

include h hc

theorem ends_param : Ends calls.param inner.param c fun _ => c.Before := by
  unfold PartialParser.Inner.param Inner.param
  refine Ends.advance.later hc fun opening c₁ hc₁ => ?_
  refine (Ends.whileAt hc₁ fun _ hc₂ _ => .boundName hc₂).bind fun names c₂ h₂ hread => ?_
  cases names with
  | nil => exact .failHere
  | cons name names =>
    have hc₂ := h₂.ended hc₁
    have hbefore := hread (List.cons_ne_nil name names)
    refine Ends.mono (Q := fun _ _ => True) ?_ fun _ _ h₃ _ => hbefore.trans h₃
    refine Ends.advance.seq hc₂ fun _ c₃ hc₃ => ?_
    refine (h.expr hc₃).seq hc₃ fun type c₄ hc₄ => ?_
    dsimp only
    split <;> exact (Ends.expect hc₄ (by decide)).seq hc₄ fun _ _ _ => .spanned

theorem ends_binding :
    Ends (calls.binding expected) (inner.binding expected) c fun _ => c.Before := by
  refine .lookIf (fun _ => ?_) fun _ => .map (.boundName hc)
  exact .lookIf (fun _ => .map (ends_param h hc)) fun _ => .unexpected

theorem ends_bindings :
    Ends (calls.bindings expected) (inner.bindings expected) c fun _ => c.Before := by
  refine (Ends.whileAt hc fun _ hc₁ _ => ends_binding h hc₁).bind fun bindings c₁ h₁ hread => ?_
  cases bindings with
  | nil => exact .unexpected
  | cons binding bindings =>
    have hbefore := hread (List.cons_ne_nil binding bindings)
    exact Ends.advance.bind fun _ c₂ h₂ _ => .pure (hbefore.trans h₂)

theorem ends_bind {binder : Binder} :
    Ends (calls.bind binder expected) (inner.bind binder expected) c fun _ => c.Before := by
  refine Ends.advance.later hc fun keyword c₁ hc₁ => ?_
  refine (ends_bindings h hc₁).first hc₁ fun bindings c₂ hc₂ => ?_
  exact (h.expr hc₂).seq hc₂ fun body c₃ hc₃ => .spanned

theorem ends_letIn : Ends calls.letIn inner.letIn c fun _ => c.Before := by
  refine Ends.advance.later hc fun keyword c₁ hc₁ => ?_
  refine (h.decls hc₁).first hc₁ fun decls c₂ hc₂ => ?_
  refine (Ends.expect hc₂ (by decide)).seq hc₂ fun _ c₃ hc₃ => ?_
  exact (h.expr hc₃).seq hc₃ fun body c₄ hc₄ => .spanned

theorem ends_assignment : Ends calls.assignment inner.assignment c fun _ => c.Before := by
  refine (Ends.name hc).first hc fun name c₁ hc₁ => ?_
  refine (Ends.expect hc₁ (by decide)).seq hc₁ fun _ c₂ hc₂ => ?_
  exact (h.expr hc₂).seq hc₂ fun value c₃ hc₃ => .spanned

/-- A further assignment, with the semicolon before it. -/
theorem ends_nextAssignment :
    Ends (do
        expect .semicolon "between record fields"
        calls.assignment)
      (do
        expect .semicolon "between record fields"
        inner.assignment) c fun _ => c.Before :=
  (Ends.expect hc (by decide)).first hc fun _ _ hc₁ => (ends_assignment h hc₁).loose

theorem ends_assignments : Ends calls.assignments inner.assignments c fun _ _ => True := by
  refine .lookIf (fun _ => .pure trivial) fun _ => ?_
  refine (ends_assignment h hc).seq hc fun first c₁ hc₁ => ?_
  refine (Ends.whileAt hc₁ fun _ hc₂ _ => ends_nextAssignment h hc₂).seq hc₁ fun others c₂ hc₂ => ?_
  exact .pure trivial

theorem ends_recordValue : Ends calls.recordValue inner.recordValue c fun _ => c.Before := by
  refine Ends.advance.later hc fun keyword c₁ hc₁ => ?_
  have hfields : ∀ (builder : Option QualifiedName) (c₂ : Cursor), c₂.eof.token = .eof →
      Ends (do
          expect .lbrace "to start record fields"
          let fields ← calls.assignments
          let _ ← (advance : Parser Lexeme)
          return Concrete.Atom.record (← spanFrom keyword.span.start) builder fields)
        (do
          expect .lbrace "to start record fields"
          let fields ← inner.assignments
          let _ ← advance
          return .record (← spanFrom keyword.span.start) builder fields) c₂
        fun _ => c₂.Before := by
    intro builder c₂ hc₂
    refine (Ends.expect hc₂ (by decide)).first hc₂ fun _ c₃ hc₃ => ?_
    refine (ends_assignments h hc₃).seq hc₃ fun fields c₄ hc₄ => ?_
    exact Ends.advance.seq hc₄ fun _ c₅ hc₅ => .spanned
  refine .look ?_
  cases atIdent c₁ with
  | true => exact (Ends.map (S := fun _ => c₁.Before) (.qualifiedName hc₁)).later hc₁ hfields
  | false => exact (Ends.pure (Q := fun _ _ => True) trivial).later hc₁ hfields

theorem ends_paren : Ends calls.paren inner.paren c fun _ => c.Before := by
  refine Ends.advance.later hc fun opening c₁ hc₁ => ?_
  refine (h.expr hc₁).first hc₁ fun e c₂ hc₂ => ?_
  exact (Ends.expect hc₂ (by decide)).seq hc₂ fun _ c₃ hc₃ => .spanned

theorem ends_atom : Ends calls.atom inner.atom c fun _ => c.Before := by
  refine .look ?_
  cases ht : c.token with
  | ident _ => exact (Ends.qualifiedName hc).first hc fun _ _ _ => .pure trivial
  | underscore | unit | kwType | integer _ => exact .leaf hc (by rw [ht]; nofun)
  | lparen => exact .lookIf (fun _ => .map (ends_param h hc)) fun _ => ends_paren h hc
  | lbrace => exact .map (ends_param h hc)
  | kwRecord => exact ends_recordValue h hc
  | _ => exact .unexpected

theorem ends_run : Ends calls.run inner.run c fun _ => c.Before := by
  refine (Ends.whileAt hc fun _ hc₁ _ => ends_atom h hc₁).bind fun atoms c₁ h₁ hatoms => ?_
  -- a run that is not empty has an atom, or a form behind its atoms
  have hend : ∀ (last : List Concrete.Atom) {c₂ : Cursor}, c₁.Leads c₂ →
      (last ≠ [] → c₁.Before c₂) → Ends
      (if (atoms ++ last).isEmpty then liftM (unexpected "an expression") else pure (atoms ++ last))
      (if (atoms ++ last).isEmpty then unexpected "an expression" else pure (atoms ++ last)) c₂
      fun _ => c.Before := by
    intro last c₂ h₂ hlast
    cases atoms with
    | cons atom atoms => exact .pure ((hatoms (List.cons_ne_nil atom atoms)).trans h₂)
    | nil =>
      cases last with
      | cons tail last => exact .pure (h₁.before (hlast (List.cons_ne_nil tail last)))
      | nil => exact .unexpected
  refine .look ?_
  cases atTail c₁ with
  | true =>
    have hexpr := h.expr (h₁.ended hc)
    refine (Ends.map (S := fun _ => c₁.Before) hexpr).bind fun last c₂ h₂ hbefore => ?_
    exact hend last h₂ fun _ => hbefore
  | false =>
    refine (Ends.pure (Q := fun last _ => last = []) rfl).bind fun last c₂ h₂ hlast => ?_
    exact hend last h₂ fun hne => absurd hlast hne

theorem ends_runOrArrow : Ends calls.runOrArrow inner.runOrArrow c fun _ => c.Before := by
  refine .look ?_
  refine (ends_run h hc).first hc fun atoms c₁ hc₁ => ?_
  refine Ends.eat.seq hc₁ fun found c₂ hc₂ => ?_
  cases found with
  | true => exact (h.expr hc₂).seq hc₂ fun codomain c₃ hc₃ => .spanned
  | false => exact .spanned

theorem ends_expression : Ends calls.expression inner.expression c fun _ => c.Before := by
  refine .look ?_
  cases c.token with
  | backslash | kwForall => exact ends_bind h hc
  | kwLet => exact ends_letIn h hc
  | arrow => exact .failHere
  | _ => exact ends_runOrArrow h hc

theorem ends_params : Ends calls.params inner.params c fun _ _ => True :=
  (Ends.whileAt hc fun _ hc₁ _ => ends_param h hc₁).loose

theorem ends_header : Ends (calls.header expected) (inner.header expected) c fun _ => c.Before := by
  refine (Ends.name hc).first hc fun name c₁ hc₁ => ?_
  refine (ends_params h hc₁).seq hc₁ fun params c₂ hc₂ => ?_
  exact (Ends.optional hc₂ fun _ => h.expr).seq hc₂ fun _ _ _ => .pure trivial

theorem ends_signature {start : Nat} :
    Ends (calls.signature start expected context) (inner.signature start expected context) c
      fun _ => c.Before := by
  refine (Ends.names hc).first hc fun names c₁ hc₁ => ?_
  refine (Ends.expect hc₁ (by decide)).seq hc₁ fun _ c₂ hc₂ => ?_
  exact (h.expr hc₂).seq hc₂ fun type c₃ hc₃ => .spanned

theorem ends_dataType : Ends calls.dataType inner.dataType c fun _ => c.Before := by
  refine Ends.advance.later hc fun keyword c₁ hc₁ => ?_
  refine (ends_header h hc₁).first hc₁ fun header c₂ hc₂ => ?_
  refine Ends.eat.seq hc₂ fun found c₃ hc₃ => ?_
  cases found with
  | true => exact (h.constructors hc₃).seq hc₃ fun _ _ _ => .spanned
  | false => exact .spanned

theorem ends_constructorSignature :
    Ends calls.constructorSignature inner.constructorSignature c fun _ => c.Before :=
  .look (Ends.eat.later hc fun _ _ hc₁ => ends_signature h hc₁)

theorem ends_recordType : Ends calls.recordType inner.recordType c fun _ => c.Before := by
  refine Ends.advance.later hc fun keyword c₁ hc₁ => ?_
  refine (ends_header h hc₁).first hc₁ fun header c₂ hc₂ => ?_
  refine (Ends.expect hc₂ (by decide)).seq hc₂ fun _ c₃ hc₃ => ?_
  refine (h.members hc₃).seq hc₃ fun members c₄ hc₄ => ?_
  exact Ends.record.seq hc₄ fun _ c₅ hc₅ => .spanned

theorem ends_moduleBlock : Ends calls.moduleBlock inner.moduleBlock c fun _ => c.Before := by
  refine Ends.advance.later hc fun keyword c₁ hc₁ => ?_
  refine (Ends.qualifiedName hc₁).first hc₁ fun name c₂ hc₂ => ?_
  refine (ends_params h hc₂).seq hc₂ fun params c₃ hc₃ => ?_
  refine (Ends.expect hc₃ (by decide)).seq hc₃ fun _ c₄ hc₄ => ?_
  exact (h.decls hc₄).seq hc₄ fun decls c₅ hc₅ => .spanned

theorem ends_ascription : Ends calls.ascription inner.ascription c fun _ => c.Before :=
  .look (.map (ends_signature h hc))

/-- A pattern with the bar before it. -/
theorem ends_withPattern :
    Ends (do let _ ← (advance : Parser Lexeme); calls.expr) (do let _ ← advance; inner.expr) c
      fun _ => c.Before :=
  Ends.advance.later hc fun _ _ hc₁ => h.expr hc₁

theorem ends_clause : Ends calls.clause inner.clause c fun _ => c.Before := by
  refine .look ?_
  refine (h.expr hc).first hc fun lhs c₁ hc₁ => ?_
  refine (Ends.whileAt hc₁ fun _ hc₂ _ => ends_withPattern h hc₂).seq hc₁ fun patterns c₂ hc₂ => ?_
  refine (Ends.optional hc₂ fun _ => h.expr).seq hc₂ fun withExpr c₃ hc₃ => ?_
  refine (Ends.optional hc₃ fun _ => h.expr).seq hc₃ fun rhs c₄ hc₄ => ?_
  split
  · exact .unexpected
  · exact (Ends.optional hc₄ fun _ => h.decls).seq hc₄ fun locals c₅ hc₅ => .spanned

theorem ends_signatureOrClause :
    Ends calls.signatureOrClause inner.signatureOrClause c fun _ => c.Before := by
  refine .look ?_
  cases c.firstInItem? [.colon, .equals, .kwWith, .pipe] with
  | none => exact .look .failHere
  | some t =>
    cases t with
    | colon => exact ends_ascription h hc
    | _ => exact ends_clause h hc

theorem ends_declaration (options : Options) :
    Ends (calls.declaration options) (inner.declaration options) c fun _ => c.Before := by
  refine .look ?_
  cases c.token with
  | kwData => exact ends_dataType h hc
  | kwRecord => exact ends_recordType h hc
  | kwModule => exact ends_moduleBlock h hc
  | kwImport | kwOpen => exact .importModule hc
  | kwFixity assoc => exact .fixityDeclaration hc
  | kwField | kwConstructor => exact .failHere
  | _ => exact ends_signatureOrClause h hc

theorem ends_member (options : Options) :
    Ends (calls.member options) (inner.member options) c fun _ => c.Before := by
  refine .look ?_
  cases c.token with
  | kwConstructor => exact Ends.advance.later hc fun _ _ hc₁ => .map (.name hc₁)
  | kwField => exact Ends.advance.later hc fun _ _ hc₁ => .map (ends_signature h hc₁)
  | _ => exact .map (ends_declaration h hc options)

theorem ends_file :
    Ends (PartialParser.file calls.decls) (fileWith inner.decls) c fun _ _ => True := by
  refine (h.decls hc).settle.seq hc fun decls c₁ hc₁ => ?_
  refine .lookIf (fun _ => .pure trivial) fun _ => .look ?_
  exact Ends.record.seq hc₁ fun _ _ _ => .pure trivial

end

/-- One level after the other. -/
theorem endsAs_inner (options : Options) (levels : Nat) :
    (inner options levels).EndsAs (PartialParser.inner options levels) := by
  induction levels with
  | zero => exact ⟨fun _ => .failHere, fun _ => .failHere, fun _ => .failHere, fun _ => .failHere⟩
  | succ levels ih =>
    exact ⟨fun hc => ends_expression ih hc,
      fun hc => .block hc fun _ hc₁ => ends_declaration ih hc₁ options,
      fun hc => .block hc fun _ hc₁ => ends_constructorSignature ih hc₁,
      fun hc => .block hc fun _ hc₁ => ends_member ih hc₁ options⟩

namespace Production

variable {α : Type}

/-- Whether a production may give a value although it has read nothing. -/
def mayReadNothing : Production α → Bool
  | file | params | assignments => true
  | _ => false

section

variable {w : PartialParser α} {p : Parser α}

theorem always {excuse : Bool} (h : Ends w p c fun _ => c.Before) :
    Ends w p c fun _ c' => excuse = false → c.Before c' :=
  h.mono fun _ _ _ hbefore _ => hbefore

theorem excused (h : Ends w p c fun _ _ => True) :
    Ends w p c fun _ c' => true = false → c.Before c' :=
  h.mono fun _ _ _ _ => nofun

end

/-- Every production ends with plain repetitions as it does with checked ones. -/
theorem ends (options : Options) (production : Production α) (levels : Nat)
    (hc : c.eof.token = .eof) :
    Ends (production.partialParser options levels) (production.parser options levels) c fun _ c' =>
      production.mayReadNothing = false → c.Before c' := by
  have h := endsAs_inner options levels
  induction production generalizing c levels with
  | file => exact excused (ends_file h hc)
  | block item ih =>
    refine always ?_
    cases levels with
    | zero => exact .failHere
    | succ levels => exact .block hc fun c₁ hc₁ => ih levels hc₁ (endsAs_inner options levels)
  | declaration => exact always (ends_declaration h hc options)
  | dataType => exact always (ends_dataType h hc)
  | constructorSignature => exact always (ends_constructorSignature h hc)
  | recordType => exact always (ends_recordType h hc)
  | member => exact always (ends_member h hc options)
  | moduleBlock => exact always (ends_moduleBlock h hc)
  | importModule => exact always (.importModule hc)
  | fixityDeclaration assoc => exact always (.fixityDeclaration hc)
  | signatureOrClause => exact always (ends_signatureOrClause h hc)
  | ascription => exact always (ends_ascription h hc)
  | clause => exact always (ends_clause h hc)
  | header expected => exact always (ends_header h hc)
  | signature start expected context => exact always (ends_signature h hc)
  | params => exact excused (ends_params h hc)
  | param => exact always (ends_param h hc)
  | expr => exact always (h.expr hc)
  | expression => exact always (ends_expression h hc)
  | bind binder expected => exact always (ends_bind h hc)
  | bindings expected => exact always (ends_bindings h hc)
  | binding expected => exact always (ends_binding h hc)
  | letIn => exact always (ends_letIn h hc)
  | runOrArrow => exact always (ends_runOrArrow h hc)
  | run => exact always (ends_run h hc)
  | atom => exact always (ends_atom h hc)
  | paren => exact always (ends_paren h hc)
  | recordValue => exact always (ends_recordValue h hc)
  | assignments => exact excused (ends_assignments h hc)
  | assignment => exact always (ends_assignment h hc)
  | qualifiedName expected => exact always (.qualifiedName hc)
  | names expected => exact always (.names hc)
  | boundName expected => exact always (.boundName hc)
  | name expected => exact always (.name hc)

end Production

/-! ## Repetitions -/

/-- The repetitions of the grammar, with what a round gives. -/
inductive Repetition : Type → Type 1
  | separators : Repetition Lexeme
  | items {α : Type} (item : Production α) : Repetition (Option α)
  | names (expected : String) : Repetition Name
  | segments (first : Name) : Repetition Name
  | params : Repetition (Param Concrete.Expr)
  | paramNames : Repetition Name
  | bindings (expected : String) : Repetition (Binding Concrete.Expr)
  | assignments : Repetition (Assignment Concrete.Expr)
  | atoms : Repetition Concrete.Atom
  | withPatterns : Repetition Concrete.Expr

namespace Repetition

variable {α : Type}

/-- Whether a further round follows the one that gave `last`. -/
def more : {α : Type} → Repetition α → (last : Option α) → Cursor → Bool
  | _, separators, _ => (·.token.isSeparator)
  | _, items _, _ => moreItems
  | _, names _, _ => atIdent
  | _, segments first, last => atSegment (last.getD first).span.stop
  | _, params, _ => atBracket
  | _, paramNames, _ => (!·.isAt .colon)
  | _, bindings _, _ => (!·.isAt .arrow)
  | _, assignments, _ => (!·.isAt .rbrace)
  | _, atoms, _ => atAtom
  | _, withPatterns, _ => (·.isAt .pipe)

/-- One round, when `levels` are left. -/
def round (options : Options) (levels : Nat) : {α : Type} → Repetition α → Parser α
  | _, separators => advance
  | _, items item => do move Cursor.skipSeparators; Parser.item (item.parser options levels)
  | _, names expected => name expected
  | _, segments _ => do let _ ← advance; name "a name after `.`"
  | _, params => (inner options levels).param
  | _, paramNames => boundName "a parameter name"
  | _, bindings expected => (inner options levels).binding expected
  | _, assignments => do
    expect .semicolon "between record fields"
    (inner options levels).assignment
  | _, atoms => (inner options levels).atom
  | _, withPatterns => do let _ ← advance; (inner options levels).expr

/-- A round that gives a value has read something. -/
theorem ends_round (options : Options) (levels : Nat) (repetition : Repetition α)
    {last : Option α} (hc : c.eof.token = .eof) (hmore : repetition.more last c = true) :
    Ends (liftM (repetition.round options levels)) (repetition.round options levels) c
      fun _ => c.Before := by
  have h := endsAs_inner options levels
  cases repetition with
  | separators => exact .separator hc hmore
  | items item => exact (Ends.nextItem hc hmore fun _ hc₁ => item.ends options levels hc₁).whole
  | names expected => exact .name hc
  | segments first => exact (Ends.segment hc).whole
  | params => exact (ends_param h hc).whole
  | paramNames => exact .boundName hc
  | bindings expected => exact (ends_binding h hc).whole
  | assignments => exact (ends_nextAssignment h hc).whole
  | atoms => exact (ends_atom h hc).whole
  | withPatterns => exact (ends_withPattern h hc).whole

end Repetition

/-! ## Progress -/

/-- An item that does not parse ends no block. -/
theorem exists_returns_item {α : Type} (p : Parser α) (c : Cursor) :
    ∃ o c', (item p).Returns c o c' := by
  simp only [Returns, item]
  split
  · exact ⟨_, _, rfl, rfl⟩
  · split <;> exact ⟨_, _, rfl, rfl⟩

/-- Where the parser stands at `c` with `levels` left, it goes on or stops, and it
ends. -/
structure Progresses (options : Options) (levels : Nat) (c : Cursor) : Prop where
  /-- A production that gives a value has read something, but for the few that may
  be empty. -/
  reads : ∀ {α : Type} (production : Production α) (a : α) (c' : Cursor),
    production.mayReadNothing = false → (production.parser options levels).Returns c a c' →
    c.Before c'
  /-- A round of a block gives a value, and goes on behind the separators, whether its
  item is read or fails, and whether the rest of it is skipped or not. -/
  items : ∀ {α : Type} (production : Production α), moreItems c = true →
    ∃ o c', (item (production.parser options levels)).Returns c.skipSeparators o c' ∧
      c.Leads c.skipSeparators ∧ c.skipSeparators.Before c'
  /-- A round of any repetition that gives a value goes on. So the repetition ends
  without the check. -/
  rounds : ∀ {α : Type} (repetition : Repetition α) (last : Option α),
    (repetition.more last c = true → ∀ a c', (repetition.round options levels).Returns c a c' →
      c.Before c') ∧
    PartialParser.whileFrom repetition.more (liftM (repetition.round options levels)) last c =
      .some (whileFrom repetition.more (repetition.round options levels) last c)
  /-- Skipping the rest of an item goes on token by token, or stops. -/
  skips : ∀ blocks brackets,
    (c.token.endsItem blocks brackets = false → c.Before c.advance) ∧
    PartialParser.skipItem blocks brackets c =
      .some (pure (), c.skip (Cursor.itemLength blocks brackets c.ahead))
  /-- Each production ends, without checks, as it does with them. -/
  ends : ∀ {α : Type} (production : Production α),
    production.partialParser options levels c = .some (production.parser options levels c)

/-- The parser makes progress at every place of every stream that ends at an end of
file, whether or not a text has such a stream. So it ends on every list of tokens. -/
theorem progresses_everywhere (options : Options) :
    (∀ (levels : Nat) (c : Cursor), c.eof.token = .eof → Progresses options levels c) ∧
    ∀ toks : List Lexeme, ∃ c',
      Production.file.partialParser options options.maxNesting (.ofLexemes toks) =
        .some (.noted (file options (.ofLexemes toks)), c') := by
  refine ⟨fun levels c hc => ?_, fun toks => ?_⟩
  · constructor
    case reads =>
      intro α production a c' hreads hreturns
      obtain ⟨hresult, rfl⟩ := hreturns
      exact (production.ends options levels hc).value a hresult hreads
    case items =>
      intro α production hmore
      have hleads := Cursor.leads_skipSeparators c
      have hitem := Ends.item (hleads.ended hc) ((moreItems_iff hc).1 hmore)
        (production.ends options levels (hleads.ended hc))
      obtain ⟨o, c', hresult, rfl⟩ :=
        exists_returns_item (production.parser options levels) c.skipSeparators
      exact ⟨o, _, ⟨hresult, rfl⟩, hleads, hitem.value o hresult⟩
    case rounds =>
      intro α repetition last
      refine ⟨fun hmore a c' hreturns => ?_, ?_⟩
      · obtain ⟨hresult, rfl⟩ := hreturns
        exact (repetition.ends_round options levels hc hmore).value a hresult
      · exact (Ends.whileFrom last hc fun _ _ hc₁ => repetition.ends_round options levels hc₁).run
    case skips =>
      intro blocks brackets
      refine ⟨fun hend => Cursor.before_advance hc fun heof => ?_,
        PartialParser.skipItem_apply hc blocks brackets⟩
      rw [heof] at hend
      exact absurd hend nofun
    case ends => exact fun production => (production.ends options levels hc).run
  · have h := Production.file.ends options options.maxNesting (Cursor.eof_ofLexemes toks)
    refine ⟨(Production.file.parser options options.maxNesting (.ofLexemes toks)).2, ?_⟩
    rw [h.run, ← Production.parser_file]

/-- At a bracket that nothing opens, with an end of file and a block end behind it,
a declaration fails at once, and is skipped together with the bracket. -/
theorem progresses_everywhere_strays :
    let c := Cursor.ofLexemes
      ([.semicolon, .rparen, .pipe, .eof, .blockEnd, .kwIn].map (Lexeme.marker · (.eofAt 0)))
    c.eof.token = .eof ∧ moreItems c = true ∧
      ((inner {} 1).declaration {} c.skipSeparators).2 = c.skipSeparators ∧
      ∃ o c', (item ((inner {} 1).declaration {})).Returns c.skipSeparators o c' ∧
        c.Leads c.skipSeparators ∧ c.skipSeparators.Before c' := by
  intro c
  have hc : c.eof.token = .eof := rfl
  have hmore : moreItems c = true := by decide +kernel
  exact ⟨hc, hmore, by decide +kernel,
    ((progresses_everywhere {}).1 1 c hc).items .declaration hmore⟩

end Parser

end Offside
