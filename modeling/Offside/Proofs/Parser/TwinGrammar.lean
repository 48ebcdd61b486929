-- SUMMARY: Every production of the grammar does the same at twin cursors.
import Offside.Proofs.Parser.Blocks

/-! # The grammar side by side

No production reads, or looks, behind the segment in which it began. This is
proved of the productions over `Inner` one by one, and of all of them by
induction on the levels of nesting (`isSteady_inner`). -/

namespace Offside

namespace Parser

variable {b b' : List Lexeme} {same : Prop} {c c' : Cursor} {expected : String}

/-- The parsers for what nests do the same at twins, and an expression reads on
from where it begins. -/
structure Inner.IsSteady (inner : Inner) : Prop where
  expr : ∀ {b b' same c c'}, Twin b b' same c c' →
    Agrees b b' same inner.expr c c' fun _ => Past b b' c
  decls : ∀ {b b' c c'}, Twin b b' True c c' → Steady b b' inner.decls c c'
  constructors : ∀ {b b' c c'}, Twin b b' True c c' → Steady b b' inner.constructors c c'
  members : ∀ {b b' c c'}, Twin b b' True c c' → Steady b b' inner.members c c'

theorem atAtom_twin (h : Twin b b' same c c') : atAtom c = atAtom c' :=
  h.of_token Token.startsAtom rfl

theorem atTail_twin (h : Twin b b' same c c') : atTail c = atTail c' :=
  h.of_token Token.startsTail rfl

theorem atBracket_twin (h : Twin b b' same c c') : atBracket c = atBracket c' := by
  rw [atBracket, atBracket, h.isAt_eq rfl, h.isAt_eq rfl]

/-- Whether a bracket is a typed parameter shows in the segment. -/
theorem atTypedParam_twin (h : Twin b b' same c c') (hc : c.token.isOpener = true) :
    c.atTypedParam = c'.atTypedParam := by
  have hends : c.token.endsSegment = false := by
    cases ht : c.token <;> simp_all [Token.isOpener, Token.endsSegment]
  obtain ⟨tok, toks, hshared, hahead, hahead', hcurrent, -⟩ := h.exists_cons hends
  rw [Cursor.atTypedParam, Cursor.atTypedParam, hahead, hahead']
  refine (hshared.scans _ List.suffix_rfl).colon (.inr ⟨tok, toks, rfl, ?_⟩)
  rw [← hcurrent]
  exact hc

theorem Agrees.boundName (h : Twin b b' same c c') (hexpected : expected ≠ "the end of the block") :
    Agrees b b' same (boundName expected) c c' fun _ => Past b b' c := by
  refine .lookIf (h.isAt_eq rfl) (fun hat => ?_) fun _ => .name h hexpected
  exact (Agrees.advance h (hasText_of_isAt hat rfl)).bind fun tok c₁ c₁' h₁ => .pure h₁.2

namespace Inner

variable {inner : Inner}

/-! ## Expressions -/

theorem agrees_param (hinner : inner.IsSteady) (h : Twin b b' same c c')
    (hc : c.token.hasText = true) :
    Agrees b b' same inner.param c c' fun _ => Past b b' c := by
  refine (Agrees.advance h hc).bind fun opening c₁ c₁' h₁ => .past ?_ h₁.2.lt
  refine Agrees.bind (Steady.whileAt ?_ ?_ h₁.2.twin) fun names c₂ c₂' h₂ => ?_
  · exact fun c c' h => by rw [h.isAt_eq rfl]
  · exact fun c c' h _ => .boundName h (by decide)
  · split
    · exact .failHere h₂.2 rfl
    · have hcolon : c₂.isAt .colon = true := by simpa using h₂.1
      refine Agrees.bind (Agrees.advance h₂.2 (hasText_of_isAt hcolon rfl)) fun _ c₃ c₃' h₃ => ?_
      refine (hinner.expr h₃.2.twin).bind fun type c₄ c₄' h₄ => ?_
      have hclose : ∀ {t : Token} {context : String}, t.hasText = true →
          Steady b b' (do
            expect t context
            return (⟨← spanFrom opening.span.start, decide (opening.token = .lbrace), names, type⟩ :
              Param Concrete.Expr))
            c₄ c₄' := fun ht =>
        (Agrees.expect h₄.twin ht).bind fun _ c₅ c₅' h₅ =>
          (Steady.spanFrom h₅.twin).bind fun _ _ _ h₆ => .pure h₆
      split
      · exact hclose rfl
      · exact hclose rfl

theorem agrees_binding (hinner : inner.IsSteady) (h : Twin b b' same c c')
    (hexpected : expected ≠ "the end of the block") :
    Agrees b b' same (inner.binding expected) c c' fun _ => Past b b' c := by
  refine .lookIf (atBracket_twin h) (fun hbracket => ?_) fun _ => (Agrees.boundName h hexpected).mapPast
  have hopens : c.token.isOpener = true := by
    rcases Bool.or_eq_true_iff.1 hbracket with hat | hat <;> rw [token_of_isAt hat] <;> rfl
  refine .lookIf (atTypedParam_twin h hopens) (fun _ => ?_) fun _ => .unexpected h (by decide)
  exact (agrees_param hinner h (hasText_of_atBracket hbracket)).mapPast

theorem steady_bindings (hinner : inner.IsSteady) (h : Twin b b' True c c')
    (hexpected : expected ≠ "the end of the block") : Steady b b' (inner.bindings expected) c c' := by
  refine Agrees.bind (Steady.whileAt ?_ ?_ h) fun bindings c₁ c₁' h₁ => ?_
  · exact fun c c' h => by rw [h.isAt_eq rfl]
  · exact fun c c' h _ => agrees_binding hinner h hexpected
  · split
    · exact .unexpected h₁.2 hexpected
    · have harrow : c₁.isAt .arrow = true := by simpa using h₁.1
      exact Agrees.bind (Agrees.advance h₁.2 (hasText_of_isAt harrow rfl)) fun _ c₂ c₂' h₂ =>
        .pure h₂.2.twin

theorem agrees_bind {binder : Binder} (hinner : inner.IsSteady) (h : Twin b b' same c c')
    (hc : c.token.hasText = true) (hexpected : expected ≠ "the end of the block") :
    Agrees b b' same (inner.bind binder expected) c c' fun _ => Past b b' c := by
  refine (Agrees.advance h hc).bind fun keyword c₁ c₁' h₁ => .past ?_ h₁.2.lt
  refine (steady_bindings hinner h₁.2.twin hexpected).bind fun bindings c₂ c₂' h₂ => ?_
  refine (hinner.expr h₂).steady.bind fun body c₃ c₃' h₃ => ?_
  exact (Steady.spanFrom h₃).bind fun _ _ _ h₄ => .pure h₄

theorem agrees_letIn (hinner : inner.IsSteady) (h : Twin b b' same c c')
    (hc : c.token.hasText = true) : Agrees b b' same inner.letIn c c' fun _ => Past b b' c := by
  refine (Agrees.advance h hc).bind fun keyword c₁ c₁' h₁ => .past ?_ h₁.2.lt
  refine (hinner.decls h₁.2.twin).bind fun decls c₂ c₂' h₂ => ?_
  refine (Agrees.expect h₂ rfl).steady.bind fun _ c₃ c₃' h₃ => ?_
  refine (hinner.expr h₃).steady.bind fun body c₄ c₄' h₄ => ?_
  exact (Steady.spanFrom h₄).bind fun _ _ _ h₅ => .pure h₅

theorem agrees_assignment (hinner : inner.IsSteady) (h : Twin b b' same c c') :
    Agrees b b' same inner.assignment c c' fun _ => Past b b' c := by
  refine (Agrees.name h (by decide)).bind fun name c₁ c₁' h₁ => .past ?_ h₁.lt
  refine (Agrees.expect h₁.twin rfl).steady.bind fun _ c₂ c₂' h₂ => ?_
  refine (hinner.expr h₂).steady.bind fun value c₃ c₃' h₃ => ?_
  exact (Steady.spanFrom h₃).bind fun _ _ _ h₄ => .pure h₄

/-- The assignments of a record value end at its brace. -/
theorem agrees_assignments (hinner : inner.IsSteady) (h : Twin b b' True c c') :
    Agrees b b' True inner.assignments c c' fun _ c₁ c₁' =>
      c₁.isAt .rbrace = true ∧ Twin b b' True c₁ c₁' := by
  refine .lookIf (h.isAt_eq rfl) (fun hat => .pure ⟨hat, h⟩) fun _ => ?_
  refine (agrees_assignment hinner h).bind fun first c₁ c₁' h₁ => ?_
  refine Agrees.bind (Steady.whileAt ?_ ?_ h₁.twin) fun others c₂ c₂' h₂ => ?_
  · exact fun c c' h => by rw [h.isAt_eq rfl]
  · intro c c' h _
    refine (Agrees.expect h rfl).bind fun _ c₁ c₁' h₁ => .past ?_ h₁.lt
    exact (agrees_assignment hinner h₁.twin).steady
  · exact .pure ⟨by simpa using h₂.1, h₂.2⟩

theorem agrees_recordValue (hinner : inner.IsSteady) (h : Twin b b' same c c')
    (hc : c.token.hasText = true) : Agrees b b' same inner.recordValue c c' fun _ => Past b b' c := by
  refine (Agrees.advance h hc).bind fun keyword c₁ c₁' h₁ => .past ?_ h₁.2.lt
  have hfields : ∀ {builder : Option QualifiedName} {d d' : Cursor}, Twin b b' True d d' →
      Steady b b' (do
        expect .lbrace "to start record fields"
        let fields ← inner.assignments
        let _ ← advance
        return Concrete.Atom.record (← spanFrom keyword.span.start) builder fields) d d' := by
    intro builder d d' hd
    refine (Agrees.expect hd rfl).steady.bind fun _ c₂ c₂' h₂ => ?_
    refine Agrees.bind (agrees_assignments hinner h₂) fun fields c₃ c₃' h₃ => ?_
    refine Agrees.bind (Agrees.advance h₃.2 (hasText_of_isAt h₃.1 rfl)) fun _ c₄ c₄' h₄ => ?_
    exact (Steady.spanFrom h₄.2.twin).bind fun _ _ _ h₅ => .pure h₅
  refine Agrees.lookIf (h₁.2.twin.of_token Token.isIdent rfl) (fun _ => ?_) fun _ => ?_
  · exact (Agrees.qualifiedName h₁.2.twin (by decide)).steady.map.bind fun _ _ _ h₂ => hfields h₂
  · exact (Steady.pure h₁.2.twin).bind fun _ _ _ h₂ => hfields h₂

theorem agrees_paren (hinner : inner.IsSteady) (h : Twin b b' same c c')
    (hc : c.token.hasText = true) : Agrees b b' same inner.paren c c' fun _ => Past b b' c := by
  refine (Agrees.advance h hc).bind fun opening c₁ c₁' h₁ => .past ?_ h₁.2.lt
  refine (hinner.expr h₁.2.twin).steady.bind fun e c₂ c₂' h₂ => ?_
  refine (Agrees.expect h₂ rfl).steady.bind fun _ c₃ c₃' h₃ => ?_
  exact (Steady.spanFrom h₃).bind fun _ _ _ h₄ => .pure h₄

theorem agrees_leaf {make : Span → Leaf} (h : Twin b b' same c c') (hc : c.token.hasText = true) :
    Agrees b b' same (leaf make) c c' fun _ => Past b b' c :=
  (Agrees.advance h hc).bind fun _ _ _ h₁ => .pure h₁.2

theorem agrees_atom (hinner : inner.IsSteady) (h : Twin b b' same c c') :
    Agrees b b' same inner.atom c c' fun _ => Past b b' c := by
  refine .lookToken h rfl ?_
  cases hc : c.token with
  | ident => exact (Agrees.qualifiedName h (by decide)).bind fun _ _ _ h₁ => .pure h₁
  | underscore | unit | kwType | integer => exact agrees_leaf h (by rw [hc]; rfl)
  | lparen =>
    refine .lookIf (atTypedParam_twin h (by rw [hc]; rfl)) (fun _ => ?_) fun _ => ?_
    · exact (agrees_param hinner h (by rw [hc]; rfl)).mapPast
    · exact agrees_paren hinner h (by rw [hc]; rfl)
  | lbrace => exact (agrees_param hinner h (by rw [hc]; rfl)).mapPast
  | kwRecord => exact agrees_recordValue hinner h (by rw [hc]; rfl)
  | _ => exact .unexpected h (by decide)

/-- A run is not empty. -/
theorem agrees_run (hinner : inner.IsSteady) (h : Twin b b' same c c') :
    Agrees b b' same inner.run c c' fun _ => Past b b' c := by
  refine (Agrees.whileAt (fun c c' h => atAtom_twin h) (fun c c' h _ => agrees_atom hinner h) h).bind ?_
  rintro atoms c₁ c₁' ⟨-, hatoms⟩
  obtain ⟨htwin, hle⟩ : Twin b b' same c₁ c₁' ∧ c₁.ahead.length ≤ c.ahead.length := by
    rcases hatoms with ⟨-, rfl, rfl⟩ | ⟨-, hpast⟩
    · exact ⟨h, Nat.le_refl _⟩
    · exact ⟨hpast.twin.loosen, Nat.le_of_lt hpast.lt⟩
  refine .lookIf (atTail_twin htwin) (fun _ => ?_) fun _ => ?_
  · refine (hinner.expr htwin).mapPast.bind fun last c₂ c₂' h₂ => ?_
    dsimp only
    split
    · exact .unexpected h₂.twin.loosen (by decide)
    · exact .pure ⟨h₂.twin, Nat.lt_of_lt_of_le h₂.lt hle⟩
  · have hnone : Agrees b b' same (pure [] : Parser (List Concrete.Atom)) c₁ c₁'
        fun last c₂ c₂' => last = [] ∧ c₂ = c₁ ∧ c₂' = c₁' := .pure ⟨rfl, rfl, rfl⟩
    refine hnone.bind ?_
    rintro _ _ _ ⟨rfl, rfl, rfl⟩
    dsimp only
    split
    · exact .unexpected htwin (by decide)
    · rename_i hne
      rcases hatoms with ⟨rfl, -⟩ | ⟨-, hpast⟩
      · exact absurd rfl hne
      · exact .pure hpast

theorem agrees_runOrArrow (hinner : inner.IsSteady) (h : Twin b b' same c c') :
    Agrees b b' same inner.runOrArrow c c' fun _ => Past b b' c := by
  refine (Agrees.start h).bind ?_
  rintro start _ _ ⟨rfl, rfl⟩
  refine (agrees_run hinner h).bind fun atoms c₁ c₁' h₁ => .past ?_ h₁.lt
  refine Agrees.bind (Agrees.eat h₁.twin rfl) ?_
  rintro read c₂ c₂' (⟨rfl, hpast⟩ | ⟨rfl, rfl, rfl⟩)
  · refine (hinner.expr hpast.twin).steady.bind fun codomain c₃ c₃' h₃ => ?_
    exact (Steady.spanFrom h₃).bind fun _ _ _ h₄ => .pure h₄
  · exact (Steady.spanFrom h₁.twin).bind fun _ _ _ h₂ => .pure h₂

theorem agrees_expression (hinner : inner.IsSteady) (h : Twin b b' same c c') :
    Agrees b b' same inner.expression c c' fun _ => Past b b' c := by
  refine .lookToken h rfl ?_
  split
  · exact agrees_bind hinner h (hasText_of_isAt (decide_eq_true ‹_›) rfl) (by decide)
  · exact agrees_bind hinner h (hasText_of_isAt (decide_eq_true ‹_›) rfl) (by decide)
  · exact agrees_letIn hinner h (hasText_of_isAt (decide_eq_true ‹_›) rfl)
  · exact .failHere h rfl
  · exact agrees_runOrArrow hinner h

/-! ## Declarations -/

theorem steady_params (hinner : inner.IsSteady) (h : Twin b b' True c c') :
    Steady b b' inner.params c c' := by
  refine (Steady.whileAt (fun c c' h => atBracket_twin h) (fun c c' h hc => ?_) h).mono fun _ _ _ h => h.2
  exact agrees_param hinner h (hasText_of_atBracket hc)

theorem steady_header (hinner : inner.IsSteady) (h : Twin b b' True c c')
    (hexpected : expected ≠ "the end of the block") : Steady b b' (inner.header expected) c c' := by
  refine (Agrees.name h hexpected).steady.bind fun name c₁ c₁' h₁ => ?_
  refine (steady_params hinner h₁).bind fun params c₂ c₂' h₂ => ?_
  refine (Steady.optional h₂ rfl fun c c' h => (hinner.expr h).steady).bind fun type c₃ c₃' h₃ => ?_
  exact .pure h₃

theorem agrees_signature {start : Nat} {context : String} (hinner : inner.IsSteady)
    (h : Twin b b' same c c') (hexpected : expected ≠ "the end of the block") :
    Agrees b b' same (inner.signature start expected context) c c' fun _ => Past b b' c := by
  refine (Agrees.names h hexpected).bind fun names c₁ c₁' h₁ => .past ?_ h₁.lt
  refine (Agrees.expect h₁.twin rfl).steady.bind fun _ c₂ c₂' h₂ => ?_
  refine (hinner.expr h₂).steady.bind fun type c₃ c₃' h₃ => ?_
  exact (Steady.spanFrom h₃).bind fun _ _ _ h₄ => .pure h₄

theorem agrees_dataType (hinner : inner.IsSteady) (h : Twin b b' same c c')
    (hc : c.token.hasText = true) : Agrees b b' same inner.dataType c c' fun _ => Past b b' c := by
  refine (Agrees.advance h hc).bind fun keyword c₁ c₁' h₁ => .past ?_ h₁.2.lt
  refine (steady_header hinner h₁.2.twin (by decide)).bind fun header c₂ c₂' h₂ => ?_
  refine Agrees.bind (Agrees.eat h₂ rfl) ?_
  rintro read c₃ c₃' (⟨rfl, hpast⟩ | ⟨rfl, rfl, rfl⟩)
  · refine (hinner.constructors hpast.twin).bind fun constructors c₄ c₄' h₄ => ?_
    exact (Steady.spanFrom h₄).bind fun _ _ _ h₅ => .pure h₅
  · exact (Steady.spanFrom h₂).bind fun _ _ _ h₃ => .pure h₃

theorem agrees_constructorSignature (hinner : inner.IsSteady) (h : Twin b b' same c c') :
    Agrees b b' same inner.constructorSignature c c' fun _ => Past b b' c := by
  refine (Agrees.start h).bind ?_
  rintro start _ _ ⟨rfl, rfl⟩
  refine (Agrees.eat h rfl).bind ?_
  rintro read c₁ c₁' (⟨rfl, hpast⟩ | ⟨rfl, rfl, rfl⟩)
  · exact .past (agrees_signature hinner hpast.twin (by decide)).steady hpast.lt
  · exact agrees_signature hinner h (by decide)

theorem agrees_recordType (hinner : inner.IsSteady) (h : Twin b b' same c c')
    (hc : c.token.hasText = true) : Agrees b b' same inner.recordType c c' fun _ => Past b b' c := by
  refine (Agrees.advance h hc).bind fun keyword c₁ c₁' h₁ => .past ?_ h₁.2.lt
  refine (steady_header hinner h₁.2.twin (by decide)).bind fun header c₂ c₂' h₂ => ?_
  refine (Agrees.expect h₂ rfl).steady.bind fun _ c₃ c₃' h₃ => ?_
  refine (hinner.members h₃).bind fun members c₄ c₄' h₄ => ?_
  refine Steady.bind (Agrees.record ?_ h₄) fun _ c₅ c₅' h₅ => ?_
  · intro d hd
    obtain ⟨name, -, rfl⟩ := List.mem_map.1 hd
    rfl
  · exact (Steady.spanFrom h₅).bind fun _ _ _ h₆ => .pure h₆

theorem agrees_moduleBlock (hinner : inner.IsSteady) (h : Twin b b' same c c')
    (hc : c.token.hasText = true) : Agrees b b' same inner.moduleBlock c c' fun _ => Past b b' c := by
  refine (Agrees.advance h hc).bind fun keyword c₁ c₁' h₁ => .past ?_ h₁.2.lt
  refine (Agrees.qualifiedName h₁.2.twin (by decide)).steady.bind fun name c₂ c₂' h₂ => ?_
  refine (steady_params hinner h₂).bind fun params c₃ c₃' h₃ => ?_
  refine (Agrees.expect h₃ rfl).steady.bind fun _ c₄ c₄' h₄ => ?_
  refine (hinner.decls h₄).bind fun decls c₅ c₅' h₅ => ?_
  exact (Steady.spanFrom h₅).bind fun _ _ _ h₆ => .pure h₆

theorem agrees_ascription (hinner : inner.IsSteady) (h : Twin b b' same c c') :
    Agrees b b' same inner.ascription c c' fun _ => Past b b' c := by
  refine (Agrees.start h).bind ?_
  rintro start _ _ ⟨rfl, rfl⟩
  exact (agrees_signature hinner h (by decide)).mapPast

theorem agrees_clause (hinner : inner.IsSteady) (h : Twin b b' same c c') :
    Agrees b b' same inner.clause c c' fun _ => Past b b' c := by
  refine (Agrees.start h).bind ?_
  rintro start _ _ ⟨rfl, rfl⟩
  refine (hinner.expr h).bind fun lhs c₁ c₁' h₁ => .past ?_ h₁.lt
  refine Agrees.bind (Steady.whileAt ?_ ?_ h₁.twin) fun patterns c₂ c₂' h₂ => ?_
  · exact fun c c' h => h.isAt_eq rfl
  · intro c c' h hc
    refine (Agrees.advance h (hasText_of_isAt hc rfl)).bind fun _ c₁ c₁' h₁ => .past ?_ h₁.2.lt
    exact (hinner.expr h₁.2.twin).steady
  · have hexpr : ∀ d d', Twin b b' True d d' → Steady b b' inner.expr d d' :=
      fun d d' hd => (hinner.expr hd).steady
    refine (Steady.optional h₂.2 rfl hexpr).bind fun withExpr c₃ c₃' h₃ => ?_
    refine (Steady.optional h₃ rfl hexpr).bind fun rhs c₄ c₄' h₄ => ?_
    split
    · exact .unexpected h₄ (by decide)
    · refine (Steady.optional h₄ rfl fun d d' hd => hinner.decls hd).bind fun locals c₅ c₅' h₅ => ?_
      exact (Steady.spanFrom h₅).bind fun _ _ _ h₆ => .pure h₆

theorem firstInItem?_twin (h : Twin b b' same c c') (wanted : List Token) :
    c.firstInItem? wanted = c'.firstInItem? wanted := by
  obtain ⟨toks, hshared, hc, hc'⟩ := h.exists_ahead
  rw [Cursor.firstInItem?, Cursor.firstInItem?, hc, hc']
  exact (hshared.scans toks List.suffix_rfl).find wanted

theorem agrees_signatureOrClause (hinner : inner.IsSteady) (h : Twin b b' same c c')
    (hc : c.token.endsSegment = false) :
    Agrees b b' same inner.signatureOrClause c c' fun _ => Past b b' c := by
  have hlook : Agrees b b' same (look (·.firstInItem? [.colon, .equals, .kwWith, .pipe])) c c'
      fun _ c₁ c₁' => c₁ = c ∧ c₁' = c' := .look (firstInItem?_twin h _) ⟨rfl, rfl⟩
  refine hlook.bind ?_
  rintro found _ _ ⟨rfl, rfl⟩
  split
  · exact agrees_ascription hinner h
  · exact agrees_clause hinner h
  · -- at a token of the segment both streams name it
    obtain ⟨tok, toks, -, -, -, hcurrent, hcurrent'⟩ := h.exists_cons hc
    have htoken : Cursor.token _ = Cursor.token _ := congrArg Lexeme.token (hcurrent.trans hcurrent'.symm)
    have hfirst : Agrees b b' same (look (·.token)) _ _ fun _ d d' => d = _ ∧ d' = _ :=
      .look htoken ⟨rfl, rfl⟩
    refine hfirst.bind ?_
    rintro first _ _ ⟨rfl, rfl⟩
    exact .failHere h rfl

theorem agrees_precedence {limit : Nat} (h : Twin b b' same c c') :
    Agrees b b' same (precedence limit) c c' fun _ => Past b b' c := by
  refine .lookToken h rfl ?_
  split
  · refine (Agrees.advance h (hasText_of_isAt (decide_eq_true ‹_›) rfl)).bind fun tok c₁ c₁' h₁ => ?_
    split
    · exact .pure h₁.2
    · exact .fail h₁.2.twin.loosen rfl
  · exact .unexpected h (by decide)

theorem agrees_fixityDeclaration {options : Options} {assoc : Associativity}
    (h : Twin b b' same c c') (hc : c.token.hasText = true) :
    Agrees b b' same (fixityDeclaration options assoc) c c' fun _ => Past b b' c := by
  refine (Agrees.advance h hc).bind fun keyword c₁ c₁' h₁ => .past ?_ h₁.2.lt
  refine (agrees_precedence h₁.2.twin).steady.bind fun precedence c₂ c₂' h₂ => ?_
  refine (Agrees.names h₂ (by decide)).steady.bind fun operators c₃ c₃' h₃ => ?_
  exact (Steady.spanFrom h₃).bind fun _ _ _ h₄ => .pure h₄

theorem agrees_importModule (h : Twin b b' same c c') (hc : c.token.hasText = true) :
    Agrees b b' same importModule c c' fun _ => Past b b' c := by
  refine (Agrees.advance h hc).bind fun keyword c₁ c₁' h₁ => .past ?_ h₁.2.lt
  have hname : ∀ {kind : ImportKind} {d d' : Cursor}, Twin b b' True d d' → Steady b b' (do
      let name ← qualifiedName "a module name"
      return Decl.importModule (← spanFrom keyword.span.start) kind name : Parser (Decl Concrete.Expr))
      d d' := by
    intro kind d d' hd
    refine (Agrees.qualifiedName hd (by decide)).steady.bind fun name c₂ c₂' h₂ => ?_
    exact (Steady.spanFrom h₂).bind fun _ _ _ h₃ => .pure h₃
  have hkind : ∀ {kind : ImportKind} {d d' : Cursor}, Twin b b' True d d' → Steady b b' (do
      let kind ← pure kind
      let name ← qualifiedName "a module name"
      return Decl.importModule (← spanFrom keyword.span.start) kind name : Parser (Decl Concrete.Expr))
      d d' := fun hd => (Steady.pure hd).bind fun _ _ _ h₂ => hname h₂
  dsimp only
  split
  · refine Agrees.bind (Agrees.eat h₁.2.twin rfl) ?_
    rintro read c₂ c₂' (⟨rfl, hpast⟩ | ⟨rfl, rfl, rfl⟩)
    · exact hkind hpast.twin
    · exact hkind h₁.2.twin
  · exact hkind h₁.2.twin

/-- Where an item begins, a declaration does the same at twins. -/
theorem agrees_declaration {options : Options} (hinner : inner.IsSteady) (h : Twin b b' same c c')
    (hc : c.token.endsSegment = false) :
    Agrees b b' same (inner.declaration options) c c' fun _ => Past b b' c := by
  refine .lookToken h rfl ?_
  split
  · exact agrees_dataType hinner h (hasText_of_isAt (decide_eq_true ‹_›) rfl)
  · exact agrees_recordType hinner h (hasText_of_isAt (decide_eq_true ‹_›) rfl)
  · exact agrees_moduleBlock hinner h (hasText_of_isAt (decide_eq_true ‹_›) rfl)
  · exact agrees_importModule h (hasText_of_isAt (decide_eq_true ‹_›) rfl)
  · exact agrees_importModule h (hasText_of_isAt (decide_eq_true ‹_›) rfl)
  · exact agrees_fixityDeclaration h (hasText_of_isAt (decide_eq_true ‹_›) rfl)
  · exact .failHere h rfl
  · exact .failHere h rfl
  · exact agrees_signatureOrClause hinner h hc

theorem agrees_member {options : Options} (hinner : inner.IsSteady) (h : Twin b b' same c c')
    (hc : c.token.endsSegment = false) :
    Agrees b b' same (inner.member options) c c' fun _ => Past b b' c := by
  refine .lookToken h rfl ?_
  split
  · refine (Agrees.advance h (hasText_of_isAt (decide_eq_true ‹_›) rfl)).bind
      fun _ c₁ c₁' h₁ => .past ?_ h₁.2.lt
    exact (Agrees.name h₁.2.twin (by decide)).steady.map
  · refine (Agrees.advance h (hasText_of_isAt (decide_eq_true ‹_›) rfl)).bind
      fun keyword c₁ c₁' h₁ => .past ?_ h₁.2.lt
    exact (agrees_signature hinner h₁.2.twin (by decide)).steady.map
  · exact (agrees_declaration hinner h hc).mapPast

end Inner

/-! ## Nesting -/

section

variable {inner : Inner} {options : Options}

theorem readsItems_declaration (hinner : inner.IsSteady) : ReadsItems (inner.declaration options) :=
  fun _ _ _ _ _ h hc => Inner.agrees_declaration hinner h hc

theorem readsItems_constructorSignature (hinner : inner.IsSteady) :
    ReadsItems inner.constructorSignature :=
  fun _ _ _ _ _ h _ => Inner.agrees_constructorSignature hinner h

theorem readsItems_member (hinner : inner.IsSteady) : ReadsItems (inner.member options) :=
  fun _ _ _ _ _ h hc => Inner.agrees_member hinner h hc

theorem readsItems_expr (hinner : inner.IsSteady) : ReadsItems inner.expr :=
  fun _ _ _ _ _ h _ => hinner.expr h

end

/-- The parsers do the same at twins however deep they may nest. -/
theorem isSteady_inner (options : Options) (levels : Nat) : (inner options levels).IsSteady := by
  induction levels with
  | zero => exact ⟨fun h => .failHere h rfl, fun h => .failHere h rfl, fun h => .failHere h rfl,
      fun h => .failHere h rfl⟩
  | succ levels ih =>
    exact ⟨fun h => Inner.agrees_expression ih h, fun h => .block (readsItems_declaration ih) h,
      fun h => .block (readsItems_constructorSignature ih) h, fun h => .block (readsItems_member ih) h⟩

end Parser

end Offside
