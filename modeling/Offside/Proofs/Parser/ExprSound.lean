-- SUMMARY: What the grammar of expressions has read is the expression it gives, token for token.
import Offside.Proofs.Parser.Passes

/-! # What an expression was read from

If a production accepts, then what it has read contributes exactly the written
form of what it gives, and what it gives is well formed. `ExprFrom` says this of
an expression. It is shown of each production, given that it holds of the
parsers for what nests one level deeper. -/

namespace Offside

namespace Parser

open Concrete (exprTokens atomTokens atomsTokens_eq paramTokens paramTokens_eq bindingTokens assignmentsTokens
  assignmentsTokens_eq declTokens declsTokens_eq)

variable {α : Type} {c c' : Cursor}

/-! ## Trees and what they were read from -/

/-- The expression `e`, which nests at most `levels` deep, was read from `toks`. -/
structure ExprFrom (limit levels : Nat) (e : Concrete.Expr) (toks : List Lexeme) : Prop where
  wellFormed : e.WellFormed limit levels
  sifts : ∀ ps, Sifts ps toks (exprTokens .plain e)
  first : ∃ tok us, toks = tok :: us ∧ (exprTokens .plain e).head? = some tok.token ∧
    (if e.isForm then tok.token.startsTail else tok.token.startsAtom) = true

/-- The atom `a` was read from `toks`. -/
structure AtomFrom (limit levels : Nat) (a : Concrete.Atom) (toks : List Lexeme) : Prop where
  wellFormed : a.WellFormed limit levels
  isTail : a.isTail = false
  sifts : ∀ ps, Sifts ps toks (atomTokens .plain a)
  first : ∃ tok us, toks = tok :: us ∧ (atomTokens .plain a).head? = some tok.token ∧
    tok.token.startsAtom = true

/-- The declaration `d` was read from `toks`, which stand at the start of an
item. -/
structure DeclFrom (limit levels : Nat) (d : Decl Concrete.Expr) (toks : List Lexeme) : Prop where
  wellFormed : Concrete.Decl.WellFormed limit levels d
  sifts : ∀ ps, Sifts (.block none :: ps) toks (declTokens .plain .plain d)
  first : ∃ tok us, toks = tok :: us ∧ d.span.start = tok.span.start ∧
    tok.token.isVirtual = false ∧ tok.token.isSeparator = false

/-- The typed parameter `p` was read from `toks`. -/
structure ParamFrom (limit levels : Nat) (p : Param Concrete.Expr) (toks : List Lexeme) : Prop where
  names_ne : p.names ≠ []
  type : p.type.WellFormed limit levels
  sifts : ∀ ps, Sifts ps toks (paramTokens .plain p)
  first : ∃ tok us, toks = tok :: us ∧ tok.token = if p.isImplicit then .lbrace else .lparen

theorem ParamFrom.atom {limit levels : Nat} {p : Param Concrete.Expr} {toks : List Lexeme}
    (h : ParamFrom limit levels p toks) : AtomFrom limit levels (.param p) toks where
  wellFormed := .param h.names_ne h.type
  isTail := rfl
  sifts := fun ps => by
    rw [atomTokens]
    exact h.sifts ps
  first := by
    obtain ⟨tok, us, rfl, htok⟩ := h.first
    refine ⟨tok, us, rfl, ?_, ?_⟩
    · rw [atomTokens, paramTokens_eq, htok]
      rfl
    · rw [htok]
      cases p.isImplicit <;> rfl

/-- Declarations contribute what they are written as. -/
theorem siftsItems {limit levels : Nat} {ps : List Place} {ds : List (Decl Concrete.Expr)}
    {items : List (List Lexeme)} (hitems : List.Forall₂ (DeclFrom limit levels) ds items) :
    List.Forall₂ (SiftsItem ps) items (ds.map (declTokens .plain .plain)) := by
  rw [List.forall₂_map_right_iff]
  exact hitems.flip.imp fun _ _ h => (h.sifts ps).item

/-- `p` gives expressions that nest at most `levels` deep and extend as far
right as they can. -/
def GivesExpr (p : Parser Concrete.Expr) (limit levels : Nat) : Prop :=
  ∀ c e c', c.Proper → p.Accepts c e c' →
    c'.token ≠ .arrow ∧ ∃ toks, c.Passes c' toks ∧ ExprFrom limit levels e toks

/-- `p` gives blocks whose items are read from their stretches as `P` says. A
block is one level of nesting. -/
def GivesBlock (p : Parser (List α)) (P : (levels : Nat) → α → List Lexeme → Prop)
    (levels : Nat) : Prop :=
  ∀ c as c', c.Proper → p.Accepts c as c' → 0 < levels ∧
    ∃ items toks, c.Passes c' toks ∧ IsBlock items toks ∧ List.Forall₂ (P (levels - 1)) as items

namespace Inner

variable {inner : Inner} {limit levels : Nat}

/-- A typed parameter, at its opening bracket. -/
theorem accepts_param (hexpr : GivesExpr inner.expr limit levels) {p : Param Concrete.Expr}
    (hc : c.Proper) (hat : c.token = .lparen ∨ c.token = .lbrace)
    (h : inner.param.Accepts c p c') :
    ∃ toks, c.Passes c' toks ∧ ParamFrom limit levels p toks := by
  simp only [param, accepts_bind_iff] at h
  obtain ⟨opening, c₁, hadv, names, c₂, hnames, h⟩ := h
  obtain ⟨rfl, rfl⟩ := accepts_advance_iff.1 hadv
  obtain ⟨-, hpass₁, hc₁⟩ := hc.read rfl (by rcases hat with hat | hat <;> rw [hat] <;> simp)
  obtain ⟨hcolon, tokss, hpass₂, heach⟩ :=
    accepts_whileAt (fun c n c' hc _ hn => accepts_boundName hc hn) hc₁ hnames
  have hcolon : c₂.token = .colon := by simpa [Cursor.isAt] using hcolon
  obtain ⟨hcolon, hpass₃, hc₃⟩ := (hpass₂.proper hc₁).read hcolon (by simp)
  have hbound : tokss.flatten.map (·.token) = names.map Name.boundToken := by
    rw [flatten_tokens heach, List.map_eq_flatMap]
  split at h
  · simp at h
  · rename_i hne
    simp only [accepts_bind_iff] at h
    obtain ⟨colon, c₃, hadv, type, c₄, htype, h⟩ := h
    obtain ⟨rfl, rfl⟩ := accepts_advance_iff.1 hadv
    obtain ⟨-, toks, hpass₄, hfrom⟩ := hexpr _ _ _ hc₃ htype
    -- the two kinds of brackets
    obtain ⟨closing, hpass₅, hnames, htype, hopening, hclosing⟩ :
        ∃ closing, c₄.Passes c' [closing] ∧ p.names = names ∧ p.type = type ∧
          (c.current.token = if p.isImplicit then .lbrace else .lparen) ∧
          closing.token = if p.isImplicit then .rbrace else .rparen := by
      split at h
      · rename_i hbrace
        simp only [accepts_bind_iff, accepts_expect_iff, accepts_spanFrom_iff, accepts_pure_iff] at h
        obtain ⟨-, c₅, ⟨hclosing, rfl⟩, span, c₆, ⟨rfl, rfl⟩, rfl, rfl⟩ := h
        obtain ⟨hclosing, hpass₅, -⟩ := (hpass₄.proper hc₃).read hclosing (by simp)
        refine ⟨_, hpass₅, rfl, rfl, ?_, ?_⟩
        · rw [if_pos hbrace, of_decide_eq_true hbrace]
        · rw [if_pos hbrace, hclosing]
      · rename_i hparen
        simp only [accepts_bind_iff, accepts_expect_iff, accepts_spanFrom_iff, accepts_pure_iff] at h
        obtain ⟨-, c₅, ⟨hclosing, rfl⟩, span, c₆, ⟨rfl, rfl⟩, rfl, rfl⟩ := h
        obtain ⟨hclosing, hpass₅, -⟩ := (hpass₄.proper hc₃).read hclosing (by simp)
        refine ⟨_, hpass₅, rfl, rfl, ?_, ?_⟩
        · rw [if_neg hparen]
          exact hat.resolve_right (of_decide_eq_false (Bool.eq_false_iff.2 hparen))
        · rw [if_neg hparen, hclosing]
    refine ⟨_, hpass₁.trans (hpass₂.trans (hpass₃.trans (hpass₄.trans hpass₅))), ?_⟩
    constructor
    · rw [hnames]
      simpa using hne
    · rw [htype]
      exact hfrom.wellFormed
    · intro ps
      have hinside : Sifts (.bracket :: Place.begin c.current.token ps)
          (tokss.flatten ++ c₂.current :: toks)
          (names.map Name.boundToken ++ .colon :: exprTokens .plain type) := by
        apply Sifts.append
        · refine Sifts.ofTokens hbound fun t ht => ?_
          obtain ⟨n, -, rfl⟩ := List.mem_map.1 ht
          exact isPlain_boundToken n
        · exact .cons hcolon rfl (hfrom.sifts _)
      have hopen : c.current.token = .lparen ∨ c.current.token = .lbrace := hat
      have hclose : closing.token = .rparen ∨ closing.token = .rbrace := by
        rw [hclosing]
        cases p.isImplicit <;> simp
      have hgroup := hinside.group hopen hclose
      rw [paramTokens_eq, hnames, htype, ← hopening, ← hclosing]
      simpa using hgroup
    · exact ⟨_, _, rfl, hopening⟩

theorem accepts_binding (hexpr : GivesExpr inner.expr limit levels) {expected : String}
    {b : Binding Concrete.Expr} (hc : c.Proper) (h : (inner.binding expected).Accepts c b c') :
    ∃ toks, c.Passes c' toks ∧ toks ≠ [] ∧
      (∀ p, b = .typed p → p.names ≠ [] ∧ p.type.WellFormed limit levels) ∧
      ∀ ps, Sifts ps toks (bindingTokens .plain b) := by
  simp only [binding, accepts_bind_iff, accepts_look_iff] at h
  obtain ⟨_, _, ⟨rfl, rfl⟩, h⟩ := h
  split at h
  · rename_i hat
    simp only [accepts_bind_iff, accepts_look_iff] at h
    obtain ⟨_, _, ⟨rfl, rfl⟩, h⟩ := h
    split at h
    · obtain ⟨p, hp, rfl⟩ := accepts_map_iff.1 h
      obtain ⟨toks, hpass, hfrom⟩ :=
        accepts_param hexpr hc (by simpa [atBracket, Cursor.isAt] using hat) hp
      refine ⟨toks, hpass, ?_, ?_, hfrom.sifts⟩
      · obtain ⟨tok, us, rfl, -⟩ := hfrom.first
        exact List.cons_ne_nil tok us
      · rintro _ ⟨⟩
        exact ⟨hfrom.names_ne, hfrom.type⟩
    · simp at h
  · obtain ⟨n, hn, rfl⟩ := accepts_map_iff.1 h
    obtain ⟨toks, hpass, hne, htoks⟩ := accepts_boundName hc hn
    refine ⟨toks, hpass, hne, by simp, fun ps => ?_⟩
    refine Sifts.ofTokens htoks fun t ht => ?_
    rw [List.mem_singleton.1 ht]
    exact isPlain_boundToken n

/-- The bindings of a binder and the arrow after them. -/
theorem accepts_bindings (hexpr : GivesExpr inner.expr limit levels) {expected : String}
    {bs : List (Binding Concrete.Expr)} (hc : c.Proper)
    (h : (inner.bindings expected).Accepts c bs c') :
    bs ≠ [] ∧ (∀ p, .typed p ∈ bs → p.names ≠ [] ∧ p.type.WellFormed limit levels) ∧
      ∃ toks, c.Passes c' toks ∧
        ∀ ps, Sifts ps toks (bs.flatMap (bindingTokens .plain) ++ [.arrow]) := by
  simp only [bindings, accepts_bind_iff] at h
  obtain ⟨bs, c₁, hbs, h⟩ := h
  obtain ⟨harrow, tokss, hpass, heach⟩ :=
    accepts_whileAt (fun c b c' hc _ hb => accepts_binding hexpr hc hb) hc hbs
  have harrow : c₁.token = .arrow := by simpa [Cursor.isAt] using harrow
  obtain ⟨harrow, hpass₁, -⟩ := (hpass.proper hc).read harrow (by simp)
  split at h
  · simp at h
  · rename_i hne
    simp only [accepts_bind_iff, accepts_advance_iff, accepts_pure_iff] at h
    obtain ⟨_, _, ⟨rfl, rfl⟩, rfl, rfl⟩ := h
    refine ⟨by simpa using hne, ?_, _, hpass.trans hpass₁, fun ps => ?_⟩
    · intro p hp
      obtain ⟨toks, -, hb, -⟩ := exists_of_forall₂ heach hp
      exact hb p rfl
    · apply Sifts.append
      · exact Sifts.flatten (heach.imp fun _ _ h => h.2) ps
      · exact .cons harrow rfl .nil

/-- A lambda or a quantifier, at its keyword. -/
theorem accepts_bind (hexpr : GivesExpr inner.expr limit levels) {binder : Binder}
    {expected : String} {e : Concrete.Expr} (hc : c.Proper) (hat : c.token = binder.token)
    (h : (inner.bind binder expected).Accepts c e c') :
    c'.token ≠ .arrow ∧ ∃ toks, c.Passes c' toks ∧ ExprFrom limit (levels + 1) e toks := by
  simp only [bind, accepts_bind_iff, accepts_advance_iff, accepts_spanFrom_iff, accepts_pure_iff]
    at h
  obtain ⟨_, _, ⟨rfl, rfl⟩, bs, c₂, hbs, body, c₃, hbody, _, _, ⟨rfl, rfl⟩, rfl, rfl⟩ := h
  obtain ⟨hkeyword, hpass₁, hc₁⟩ := hc.read hat (by cases binder <;> simp [Binder.token])
  obtain ⟨hne, htyped, toks, hpass₂, hsifts⟩ := accepts_bindings hexpr hc₁ hbs
  obtain ⟨hend, toks', hpass₃, hfrom⟩ := hexpr _ _ _ (hpass₂.proper hc₁) hbody
  refine ⟨hend, _, hpass₁.trans (hpass₂.trans hpass₃), ?_⟩
  constructor
  · exact .bind hne (fun p hp => (htyped p hp).1) (fun p hp => (htyped p hp).2) hfrom.wellFormed
  · intro ps
    have hplain : Sifts.isPlain binder.token = true := by cases binder <;> rfl
    have hall := Sifts.cons hkeyword hplain ((hsifts (Place.begin binder.token ps)).append
      (hfrom.sifts _))
    simpa [exprTokens] using hall
  · refine ⟨_, _, rfl, by simp [exprTokens, hkeyword], ?_⟩
    rw [hkeyword]
    cases binder <;> rfl

/-- A `let`, at its keyword. -/
theorem accepts_letIn (hexpr : GivesExpr inner.expr limit levels)
    (hdecls : GivesBlock inner.decls (DeclFrom limit) levels) {e : Concrete.Expr} (hc : c.Proper)
    (hat : c.token = .kwLet) (h : inner.letIn.Accepts c e c') :
    c'.token ≠ .arrow ∧ ∃ toks, c.Passes c' toks ∧ ExprFrom limit (levels + 1) e toks := by
  simp only [letIn, accepts_bind_iff, accepts_advance_iff, accepts_expect_iff,
    accepts_spanFrom_iff, accepts_pure_iff] at h
  obtain ⟨_, _, ⟨rfl, rfl⟩, ds, c₂, hds, _, _, ⟨hin, rfl⟩, body, c₄, hbody, _, _, ⟨rfl, rfl⟩,
    rfl, rfl⟩ := h
  obtain ⟨hkeyword, hpass₁, hc₁⟩ := hc.read hat (by simp)
  obtain ⟨hlevels, items, toks, hpass₂, hblock, hitems⟩ := hdecls _ _ _ hc₁ hds
  obtain ⟨hin, hpass₃, hc₃⟩ := (hpass₂.proper hc₁).read hin (by simp)
  obtain ⟨hend, toks', hpass₄, hfrom⟩ := hexpr _ _ _ hc₃ hbody
  obtain ⟨k, rfl⟩ := Nat.exists_eq_add_one_of_ne_zero hlevels.ne'
  refine ⟨hend, _, hpass₁.trans (hpass₂.trans (hpass₃.trans hpass₄)), ?_⟩
  constructor
  · refine .letIn (fun d hd => ?_) hfrom.wellFormed
    obtain ⟨item, -, hd⟩ := exists_of_forall₂ hitems hd
    exact hd.wellFormed
  · intro ps
    have hsettled := Place.settled_begin .kwLet ps
    have hall := Sifts.cons hkeyword rfl ((Sifts.block hsettled hblock (siftsItems hitems)).append
      (.cons hin rfl (hfrom.sifts _)))
    rw [exprTokens, declsTokens_eq, Style.plain_block]
    exact hall
  · exact ⟨_, _, rfl, by simp [exprTokens, hkeyword], by rw [hkeyword]; rfl⟩

/-! ## Atoms -/

theorem accepts_assignment (hexpr : GivesExpr inner.expr limit levels)
    {f : Assignment Concrete.Expr} (hc : c.Proper) (h : inner.assignment.Accepts c f c') :
    ∃ toks, c.Passes c' toks ∧ f.value.WellFormed limit levels ∧
      ∀ ps, Sifts ps toks (f.name.token :: .equals :: exprTokens .plain f.value) := by
  simp only [assignment, accepts_bind_iff, accepts_expect_iff, accepts_spanFrom_iff,
    accepts_pure_iff] at h
  obtain ⟨n, c₁, hn, _, _, ⟨hequals, rfl⟩, e, c₃, he, _, _, ⟨rfl, rfl⟩, rfl, rfl⟩ := h
  obtain ⟨tok, hpass₁, htok, -⟩ := accepts_name hc hn
  obtain ⟨hequals, hpass₂, hc₂⟩ := (hpass₁.proper hc).read hequals (by simp)
  obtain ⟨-, toks, hpass₃, hfrom⟩ := hexpr _ _ _ hc₂ he
  refine ⟨_, hpass₁.trans (hpass₂.trans hpass₃), hfrom.wellFormed, fun ps => ?_⟩
  exact .cons htok rfl (.cons hequals rfl (hfrom.sifts _))

/-- The assignments between the braces of a record value. -/
theorem accepts_assignments (hexpr : GivesExpr inner.expr limit levels)
    {fs : List (Assignment Concrete.Expr)} (hc : c.Proper)
    (h : inner.assignments.Accepts c fs c') :
    c'.token = .rbrace ∧ (∀ f ∈ fs, f.value.WellFormed limit levels) ∧
      ∃ toks, c.Passes c' toks ∧ ∀ ps, Sifts (.bracket :: ps) toks
        ([Token.semicolon].intercalate (assignmentsTokens .plain fs)) := by
  simp only [assignments, accepts_bind_iff, accepts_look_iff] at h
  obtain ⟨_, _, ⟨rfl, rfl⟩, h⟩ := h
  split at h
  · rename_i hat
    obtain ⟨rfl, rfl⟩ := accepts_pure_iff.1 h
    exact ⟨of_decide_eq_true hat, by simp, [], .refl c, fun ps => .nil⟩
  · simp only [accepts_bind_iff, accepts_pure_iff] at h
    obtain ⟨f, c₁, hf, fs, c₂, hfs, rfl, rfl⟩ := h
    obtain ⟨toks, hpass₁, hwf, hsifts⟩ := accepts_assignment hexpr hc hf
    have hround : ∀ c f c', c.Proper → (!c.isAt .rbrace) = true →
        Accepts (do expect .semicolon "between record fields"; inner.assignment) c f c' →
        ∃ toks, c.Passes c' toks ∧ toks ≠ [] ∧ f.value.WellFormed limit levels ∧
          ∀ ps, Sifts (.bracket :: ps) toks
            (.semicolon :: f.name.token :: .equals :: exprTokens .plain f.value) := by
      intro c f c' hc _ hf
      simp only [accepts_bind_iff, accepts_expect_iff] at hf
      obtain ⟨_, _, ⟨hsemi, rfl⟩, hf⟩ := hf
      obtain ⟨hsemi, hpass, hc₁⟩ := hc.read hsemi (by simp)
      obtain ⟨toks, hpass', hwf, hsifts⟩ := accepts_assignment hexpr hc₁ hf
      exact ⟨_, hpass.trans hpass', by simp, hwf, fun ps => (Sifts.semicolon hsemi).append (hsifts _)⟩
    obtain ⟨hend, tokss, hpass₂, heach⟩ := accepts_whileAt hround (hpass₁.proper hc) hfs
    refine ⟨by simpa [Cursor.isAt] using hend, ?_, _, hpass₁.trans hpass₂, fun ps => ?_⟩
    · intro g hg
      rcases List.mem_cons.1 hg with rfl | hg
      · exact hwf
      · obtain ⟨-, -, hg, -⟩ := exists_of_forall₂ heach hg
        exact hg
    · have hothers : Sifts (.bracket :: ps) tokss.flatten _ :=
        Sifts.flattenIn Place.settled_bracket (heach.imp fun _ _ h => h.2 ps)
      rw [assignmentsTokens_eq, List.map_cons, intercalate_cons, List.flatMap_map]
      exact (hsifts _).append (by rwa [Place.settled_bracket.entered])

/-- A record value, at its keyword. -/
theorem accepts_recordValue (hexpr : GivesExpr inner.expr limit levels) {a : Concrete.Atom}
    (hc : c.Proper) (hat : c.token = .kwRecord) (h : inner.recordValue.Accepts c a c') :
    ∃ toks, c.Passes c' toks ∧ AtomFrom limit levels a toks := by
  simp only [recordValue, accepts_bind_iff, accepts_advance_iff, accepts_look_iff] at h
  obtain ⟨_, _, ⟨rfl, rfl⟩, _, _, ⟨rfl, rfl⟩, h⟩ := h
  obtain ⟨hkeyword, hpass₁, hc₁⟩ := hc.read hat (by simp)
  obtain ⟨builder, c₂, ⟨hsegments, toks, hpass₂, htoks⟩, h⟩ : ∃ builder c₂,
      ((∀ q ∈ builder, q.segments ≠ []) ∧ ∃ toks, c.advance.Passes c₂ toks ∧
        toks.map (·.token) = (builder.map QualifiedName.tokens).getD []) ∧
      Accepts (do
        expect .lbrace "to start record fields"
        let fields ← inner.assignments
        let _ ← advance
        return .record (← spanFrom c.current.span.start) builder fields) c₂ a c' := by
    split at h
    · obtain ⟨_, c₂, hbuilder, h⟩ := accepts_bind_iff.1 h
      obtain ⟨q, hq, rfl⟩ := accepts_map_iff.1 hbuilder
      obtain ⟨hne, toks, hpass, htoks⟩ := accepts_qualifiedName hc₁ hq
      exact ⟨some q, c₂, ⟨by simpa using hne, toks, hpass, htoks⟩, h⟩
    · exact ⟨none, c.advance, ⟨by simp, [], .refl _, rfl⟩, h⟩
  simp only [accepts_bind_iff, accepts_advance_iff, accepts_expect_iff, accepts_spanFrom_iff,
    accepts_pure_iff] at h
  obtain ⟨_, _, ⟨hopening, rfl⟩, fs, c₄, hfs, _, _, ⟨rfl, rfl⟩, _, _, ⟨rfl, rfl⟩, rfl, rfl⟩ := h
  obtain ⟨hopening, hpass₃, hc₃⟩ := (hpass₂.proper hc₁).read hopening (by simp)
  obtain ⟨hclosing, hwf, toks', hpass₄, hsifts⟩ := accepts_assignments hexpr hc₃ hfs
  obtain ⟨hclosing, hpass₅, -⟩ := (hpass₄.proper hc₃).read hclosing (by simp)
  refine ⟨_, hpass₁.trans (hpass₂.trans (hpass₃.trans (hpass₄.trans hpass₅))), ?_⟩
  constructor
  · exact .record hsegments hwf
  · rfl
  · intro ps
    have hbraces : Sifts _ (c₂.current :: toks' ++ [c₄.current]) _ :=
      (hsifts (Place.begin c₂.current.token
        (Place.entered (Place.begin .kwRecord ps) toks))).group (.inr hopening) (.inr hclosing)
    have hplain : ∀ t ∈ (builder.map QualifiedName.tokens).getD [], Sifts.isPlain t = true := by
      cases builder with
      | none => simp
      | some q => exact fun t ht => isPlain_of_mem_qualifiedName ht
    have hall := Sifts.cons hkeyword rfl ((Sifts.ofTokens htoks hplain).append hbraces)
    simpa [atomTokens, hopening, hclosing] using hall
  · exact ⟨_, _, rfl, by simp [atomTokens, hkeyword], by rw [hkeyword]; rfl⟩

theorem accepts_paren (hexpr : GivesExpr inner.expr limit levels) {a : Concrete.Atom}
    (hc : c.Proper) (hat : c.token = .lparen) (h : inner.paren.Accepts c a c') :
    ∃ toks, c.Passes c' toks ∧ AtomFrom limit levels a toks := by
  simp only [paren, accepts_bind_iff, accepts_advance_iff, accepts_expect_iff,
    accepts_spanFrom_iff, accepts_pure_iff] at h
  obtain ⟨_, _, ⟨rfl, rfl⟩, e, c₂, he, _, _, ⟨hclosing, rfl⟩, _, _, ⟨rfl, rfl⟩, rfl, rfl⟩ := h
  obtain ⟨hopening, hpass₁, hc₁⟩ := hc.read hat (by simp)
  obtain ⟨-, toks, hpass₂, hfrom⟩ := hexpr _ _ _ hc₁ he
  obtain ⟨hclosing, hpass₃, -⟩ := (hpass₂.proper hc₁).read hclosing (by simp)
  refine ⟨_, hpass₁.trans (hpass₂.trans hpass₃), ?_⟩
  constructor
  · exact .paren hfrom.wellFormed
  · rfl
  · intro ps
    have hgroup := (hfrom.sifts (.bracket :: Place.begin c.current.token ps)).group
      (.inl hopening) (.inl hclosing)
    simpa [atomTokens, hopening, hclosing] using hgroup
  · exact ⟨_, _, rfl, by simp [atomTokens, hopening], by rw [hopening]; rfl⟩

/-- A leaf that is one token. -/
theorem accepts_leaf {t : Token} {make : Span → Leaf} {a : Concrete.Atom} (hc : c.Proper)
    (hat : c.token = t) (hmake : ∀ span, (make span).tokens = [t]) (ht : t.startsAtom = true)
    (hplain : Sifts.isPlain t = true) (hname : ∀ span q, make span ≠ .name q)
    (h : (leaf make).Accepts c a c') :
    ∃ toks, c.Passes c' toks ∧ AtomFrom limit levels a toks := by
  simp only [leaf, accepts_bind_iff, accepts_advance_iff, accepts_pure_iff] at h
  obtain ⟨_, _, ⟨rfl, rfl⟩, rfl, rfl⟩ := h
  obtain ⟨htok, hpass, -⟩ := hc.read hat (by rintro rfl; cases ht)
  refine ⟨_, hpass, ?_⟩
  constructor
  · exact .leaf fun q hq => absurd hq (hname _ q)
  · rfl
  · intro ps
    rw [atomTokens, hmake]
    exact .cons htok hplain .nil
  · exact ⟨_, _, rfl, by rw [atomTokens, hmake, htok]; rfl, by rw [htok, ht]⟩

/-- A qualified name as an atom. -/
theorem atomFrom_name {q : QualifiedName} {toks : List Lexeme} (hne : q.segments ≠ [])
    (htoks : toks.map (·.token) = q.tokens) : AtomFrom limit levels (.leaf (.name q)) toks where
  wellFormed := .leaf (by rintro _ ⟨⟩; exact hne)
  isTail := rfl
  sifts := fun ps => by
    rw [atomTokens, Leaf.tokens]
    exact .ofTokens htoks fun t ht => isPlain_of_mem_qualifiedName ht
  first := by
    obtain ⟨span, segments⟩ := q
    obtain ⟨n, ns, rfl⟩ := List.exists_cons_of_ne_nil hne
    rw [atomTokens, Leaf.tokens]
    rw [QualifiedName.tokens_cons] at htoks ⊢
    obtain ⟨tok, us, rfl, htok, -⟩ := List.map_eq_cons_iff.1 htoks
    exact ⟨tok, us, rfl, by rw [htok]; rfl, by rw [htok]; rfl⟩

theorem accepts_atom (hexpr : GivesExpr inner.expr limit levels) {a : Concrete.Atom}
    (hc : c.Proper) (h : inner.atom.Accepts c a c') :
    ∃ toks, c.Passes c' toks ∧ AtomFrom limit levels a toks := by
  obtain ⟨_, _, hlook, h⟩ := accepts_bind_iff.1 h
  obtain ⟨rfl, rfl⟩ := accepts_look_iff.1 hlook
  cases hat : c.token with
  | ident text =>
    rw [hat] at h
    simp only [accepts_bind_iff, accepts_pure_iff] at h
    obtain ⟨q, c₁, hq, rfl, rfl⟩ := h
    obtain ⟨hne, toks, hpass, htoks⟩ := accepts_qualifiedName hc hq
    exact ⟨toks, hpass, atomFrom_name hne htoks⟩
  | underscore | unit | kwType | integer =>
    rw [hat] at h
    exact accepts_leaf hc hat (fun _ => rfl) rfl rfl (by simp) h
  | lparen =>
    rw [hat] at h
    simp only [accepts_bind_iff, accepts_look_iff] at h
    obtain ⟨_, _, ⟨rfl, rfl⟩, h⟩ := h
    split at h
    · obtain ⟨p, hp, rfl⟩ := accepts_map_iff.1 h
      obtain ⟨toks, hpass, hfrom⟩ := accepts_param hexpr hc (.inl hat) hp
      exact ⟨toks, hpass, hfrom.atom⟩
    · exact accepts_paren hexpr hc hat h
  | lbrace =>
    rw [hat] at h
    obtain ⟨p, hp, rfl⟩ := accepts_map_iff.1 h
    obtain ⟨toks, hpass, hfrom⟩ := accepts_param hexpr hc (.inr hat) hp
    exact ⟨toks, hpass, hfrom.atom⟩
  | kwRecord =>
    rw [hat] at h
    exact accepts_recordValue hexpr hc hat h
  | _ =>
    rw [hat] at h
    exact absurd h not_accepts_unexpected

/-! ## Runs -/

/-- The atoms of a run before a form at its end, if there is one. -/
theorem accepts_atoms (hexpr : GivesExpr inner.expr limit levels) {atoms : List Concrete.Atom}
    (hc : c.Proper) (h : Accepts (whileAt atAtom inner.atom) c atoms c') :
    (∀ a ∈ atoms, a.isTail = false ∧ a.WellFormed limit levels) ∧ ∃ toks, c.Passes c' toks ∧
      (∀ ps, Sifts ps toks (atoms.flatMap (atomTokens .plain))) ∧
      (atoms ≠ [] → ∃ tok us, toks = tok :: us ∧
        (atoms.flatMap (atomTokens .plain)).head? = some tok.token ∧
        tok.token.startsAtom = true) ∧ (atoms = [] → toks = []) := by
  have hround : ∀ c a c', c.Proper → atAtom c = true → inner.atom.Accepts c a c' →
      ∃ toks, c.Passes c' toks ∧ toks ≠ [] ∧ AtomFrom limit levels a toks := by
    intro c a c' hc _ ha
    obtain ⟨toks, hpass, hfrom⟩ := accepts_atom hexpr hc ha
    obtain ⟨tok, us, rfl, -⟩ := hfrom.first
    exact ⟨_, hpass, List.cons_ne_nil tok us, hfrom⟩
  obtain ⟨-, tokss, hpass, heach⟩ := accepts_whileAt hround hc h
  refine ⟨?_, _, hpass, ?_, ?_, ?_⟩
  · intro a ha
    obtain ⟨toks, -, hfrom⟩ := exists_of_forall₂ heach ha
    exact ⟨hfrom.isTail, hfrom.wellFormed⟩
  · exact Sifts.flatten (heach.imp fun _ _ h => h.sifts)
  · intro hne
    cases heach with
    | nil => exact absurd rfl hne
    | cons hfrom _ =>
      obtain ⟨tok, us, rfl, hhead, hstart⟩ := hfrom.first
      refine ⟨tok, _, rfl, ?_, hstart⟩
      rw [List.flatMap_cons, List.head?_append, hhead]
      rfl
  · rintro rfl
    cases heach
    rfl

/-- A run that does not begin with a form. -/
theorem accepts_run (hexpr : GivesExpr inner.expr limit levels) {atoms : List Concrete.Atom}
    (hc : c.Proper) (hstart : c.token.startsTail = false) (h : inner.run.Accepts c atoms c') :
    Concrete.RunShape atoms ∧ (∀ a ∈ atoms, a.WellFormed limit levels) ∧
      (c'.token = .arrow → ∀ a ∈ atoms, a.isTail = false) ∧ ∃ toks, c.Passes c' toks ∧
        (∀ ps, Sifts ps toks (atoms.flatMap (atomTokens .plain))) ∧
        ∃ tok us, toks = tok :: us ∧ (atoms.flatMap (atomTokens .plain)).head? = some tok.token ∧
          tok.token.startsAtom = true := by
  simp only [run, accepts_bind_iff, accepts_look_iff] at h
  obtain ⟨atoms, c₁, hatoms, _, _, ⟨rfl, rfl⟩, h⟩ := h
  obtain ⟨heach, toks, hpass, hsifts, hfirst, hnil⟩ := accepts_atoms hexpr hc hatoms
  split at h
  · rename_i htail
    obtain ⟨_, c₂, hlast, h⟩ := accepts_bind_iff.1 h
    obtain ⟨e, he, rfl⟩ := accepts_map_iff.1 hlast
    obtain ⟨hend, toks', hpass', hfrom⟩ := hexpr _ _ _ (hpass.proper hc) he
    have hne : atoms ≠ [] := by
      intro hatoms
      subst hatoms
      rw [hnil rfl] at hpass
      rw [atTail_eq, hpass.token_eq, hstart] at htail
      exact absurd htail (by simp)
    obtain ⟨tok, us, rfl, hhead, hatom⟩ := hfirst hne
    have hform : e.isForm = true := by
      obtain ⟨tok', us', rfl, -, hkind⟩ := hfrom.first
      cases hform : e.isForm with
      | true => rfl
      | false =>
        have hcurrent : c₁.current = tok' := Cursor.token_eq_of_ahead hpass'.ahead
        rw [atTail_eq, Cursor.token, hcurrent] at htail
        rw [hform, if_neg (by simp)] at hkind
        rw [Token.startsAtom_of_startsTail htail] at hkind
        cases hkind
    split at h
    · rename_i hempty
      simp at hempty
    · obtain ⟨rfl, rfl⟩ := accepts_pure_iff.1 h
      refine ⟨.concat hne (fun a ha => (heach a ha).1) e, ?_, fun harrow => absurd harrow hend, _,
        hpass.trans hpass', ?_, tok, _, rfl, ?_, hatom⟩
      · intro a ha
        rcases List.mem_append.1 ha with ha | ha
        · exact (heach a ha).2
        · rw [List.mem_singleton.1 ha]
          exact .tail hform hfrom.wellFormed
      · intro ps
        rw [List.flatMap_append, List.flatMap_singleton, atomTokens]
        exact (hsifts ps).append (hfrom.sifts _)
      · rw [List.flatMap_append, List.head?_append, hhead]
        rfl
  · obtain ⟨_, _, hnone, h⟩ := accepts_bind_iff.1 h
    obtain ⟨rfl, rfl⟩ := accepts_pure_iff.1 hnone
    split at h
    · simp at h
    · rename_i hne
      obtain ⟨rfl, rfl⟩ := accepts_pure_iff.1 h
      rw [List.append_nil] at hne ⊢
      have hne : atoms ≠ [] := by simpa using hne
      exact ⟨.of_isTail hne fun a ha => (heach a ha).1, fun a ha => (heach a ha).2,
        fun _ a ha => (heach a ha).1, toks, hpass, hsifts, hfirst hne⟩

theorem accepts_runOrArrow (hexpr : GivesExpr inner.expr limit levels) {e : Concrete.Expr}
    (hc : c.Proper) (hstart : c.token.startsTail = false) (h : inner.runOrArrow.Accepts c e c') :
    c'.token ≠ .arrow ∧ ∃ toks, c.Passes c' toks ∧ ExprFrom limit (levels + 1) e toks := by
  simp only [runOrArrow, accepts_bind_iff, accepts_start_iff] at h
  obtain ⟨_, _, ⟨rfl, rfl⟩, atoms, c₁, hatoms, arrow, c₂, heat, h⟩ := h
  obtain ⟨hshape, hwf, hdomain, toks, hpass, hsifts, tok, us, rfl, hhead, hatom⟩ :=
    accepts_run hexpr hc hstart hatoms
  rcases accepts_eat_iff.1 heat with ⟨harrow, rfl, rfl⟩ | ⟨harrow, rfl, rfl⟩
  · simp only [if_true, accepts_bind_iff, accepts_spanFrom_iff, accepts_pure_iff] at h
    obtain ⟨codomain, c₃, hcodomain, _, _, ⟨rfl, rfl⟩, rfl, rfl⟩ := h
    have htails := hdomain harrow
    obtain ⟨harrow, hpass₁, hc₁⟩ := (hpass.proper hc).read harrow (by simp)
    obtain ⟨hend, toks', hpass₂, hfrom⟩ := hexpr _ _ _ hc₁ hcodomain
    refine ⟨hend, _, hpass.trans (hpass₁.trans hpass₂), ?_⟩
    constructor
    · exact .arrow hshape.ne_nil htails hwf hfrom.wellFormed
    · intro ps
      rw [exprTokens, atomsTokens_eq]
      exact (hsifts ps).append (.cons harrow rfl (hfrom.sifts _))
    · refine ⟨tok, _, rfl, ?_, hatom⟩
      rw [exprTokens, atomsTokens_eq, List.head?_append, hhead]
      rfl
  · simp only [Bool.false_eq_true, if_false, accepts_bind_iff, accepts_spanFrom_iff,
      accepts_pure_iff] at h
    obtain ⟨_, _, ⟨rfl, rfl⟩, rfl, rfl⟩ := h
    refine ⟨harrow, _, hpass, ?_⟩
    constructor
    · exact .run hshape hwf
    · intro ps
      rw [exprTokens, atomsTokens_eq]
      exact hsifts ps
    · refine ⟨tok, us, rfl, ?_, hatom⟩
      rw [exprTokens, atomsTokens_eq, hhead]

/-- An expression was read from its stretch if the same holds of what nests one
level deeper. -/
theorem givesExpr_expression (hexpr : GivesExpr inner.expr limit levels)
    (hdecls : GivesBlock inner.decls (DeclFrom limit) levels) :
    GivesExpr inner.expression limit (levels + 1) := by
  intro c e c' hc h
  simp only [expression, accepts_bind_iff, accepts_look_iff] at h
  obtain ⟨_, _, ⟨rfl, rfl⟩, h⟩ := h
  split at h
  · rename_i hat
    have hat : c.token = Binder.lambda.token := hat
    exact accepts_bind hexpr hc hat h
  · rename_i hat
    have hat : c.token = Binder.forallType.token := hat
    exact accepts_bind hexpr hc hat h
  · rename_i hat
    exact accepts_letIn hexpr hdecls hc hat h
  · simp at h
  · rename_i hlambda hforall hlet _
    refine accepts_runOrArrow hexpr hc ?_ h
    cases ht : c.token <;> first | rfl | simp_all

end Inner

end Parser

end Offside
