-- SUMMARY: What the parser has read is the declarations it gives, token for token.
import Offside.Proofs.Parser.ExprSound
import Offside.Proofs.Parser.Members

/-! # What declarations were read from

`DeclFrom` says that a declaration was read from the stretch of an item. Of the
parsers for what nests one level deeper, `Inner.Sound` says that what they give
was read in this way, and this holds at every level: `Inner.sound`. -/

namespace Offside

namespace Parser

open Concrete (exprTokens paramTokens paramsTokens paramsTokens_eq optionTokens signatureTokens headerTokens
  headerTokens_eq exprsTokens exprsTokens_eq declTokens declsTokens)

variable {c c' : Cursor} {limit levels : Nat}

/-! ## Items of blocks -/

/-- The constructors `g` of a data type were read from `toks`. -/
structure ConstructorFrom (limit levels : Nat) (g : Signature Concrete.Expr)
    (toks : List Lexeme) : Prop where
  names_ne : g.names ≠ []
  type : g.type.WellFormed limit levels
  sifts : ∀ ps, SiftsItem (.block (some .kwData) :: ps) toks (signatureTokens .plain g)

/-- The member `m` of a record type was read from `toks`. -/
structure MemberFrom (limit levels : Nat) (m : Member) (toks : List Lexeme) : Prop where
  field : ∀ g, m = .field g → g.names ≠ [] ∧ g.type.WellFormed limit levels
  decl : ∀ d, m = .decl d → Concrete.Decl.WellFormed limit levels d
  sifts : ∀ ps, Sifts (.block none :: ps) toks (m.tokens .plain .plain)
  start : ∃ tok ∈ toks, tok.token.isVirtual = false ∧ m.start = tok.span.start

/-- What `inner` gives was read from its stretch, and nests at most `levels`
deep. -/
structure Inner.Sound (limit : Nat) (inner : Inner) (levels : Nat) : Prop where
  expr : GivesExpr inner.expr limit levels
  decls : GivesBlock inner.decls (DeclFrom limit) levels
  constructors : GivesBlock inner.constructors (ConstructorFrom limit) levels
  members : GivesBlock inner.members (MemberFrom limit) levels

/-! ## Declarations without parts that nest -/

theorem declFrom_fixity {options : Options} {assoc : Associativity} {d : Decl Concrete.Expr}
    (hc : c.Proper) (hat : c.token = .kwFixity assoc)
    (h : (fixityDeclaration options assoc).Accepts c d c') :
    ∃ toks, c.Passes c' toks ∧ DeclFrom options.maxPrecedence levels d toks := by
  simp only [fixityDeclaration, precedence, accepts_bind_iff, accepts_advance_iff, accepts_look_iff,
    accepts_spanFrom_iff, accepts_pure_iff] at h
  obtain ⟨_, _, ⟨rfl, rfl⟩, n, c₁, ⟨t, _, ⟨ht, rfl⟩, hn⟩, ns, c₂, hns, _, _, ⟨rfl, rfl⟩, rfl,
    rfl⟩ := h
  obtain ⟨hkeyword, hpass₁, hc₁⟩ := hc.read hat (by simp)
  split at hn
  · rename_i value
    obtain ⟨_, _, hadv, hn⟩ := accepts_bind_iff.1 hn
    obtain ⟨rfl, rfl⟩ := accepts_advance_iff.1 hadv
    obtain ⟨hvalue, hpass₂, hc₂⟩ := hc₁.read ht (by simp)
    split at hn
    · rename_i hle
      obtain ⟨rfl, rfl⟩ := accepts_pure_iff.1 hn
      obtain ⟨hne, toks, hpass₃, htoks⟩ := accepts_names hc₂ hns
      refine ⟨_, hpass₁.trans (hpass₂.trans hpass₃), ?_⟩
      constructor
      · exact .fixity hle value.toNat_lt hne
      · intro ps
        rw [declTokens, UInt64.ofNat_toNat]
        refine .cons hkeyword rfl (.cons hvalue rfl (.ofTokens htoks fun t ht => ?_))
        obtain ⟨n, -, rfl⟩ := List.mem_map.1 ht
        rfl
      · exact ⟨_, _, rfl, rfl, by rw [hkeyword]; exact ⟨rfl, rfl⟩⟩
    · simp at hn
  · simp at hn

theorem declFrom_importModule {d : Decl Concrete.Expr} (hc : c.Proper)
    (hat : c.token = .kwImport ∨ c.token = .kwOpen) (h : importModule.Accepts c d c') :
    ∃ toks, c.Passes c' toks ∧ DeclFrom limit levels d toks := by
  simp only [importModule, accepts_bind_iff, accepts_advance_iff] at h
  obtain ⟨_, _, ⟨rfl, rfl⟩, h⟩ := h
  obtain ⟨-, hpass₁, hc₁⟩ := hc.read rfl (by rcases hat with hat | hat <;> rw [hat] <;> simp)
  obtain ⟨kind, c₂, toks, ⟨hpass₂, htoks⟩, h⟩ : ∃ kind c₂ toks,
      (c.advance.Passes c₂ toks ∧ (c.current :: toks).map (·.token) = kind.tokens) ∧
      Accepts (do
        let name ← qualifiedName "a module name"
        return .importModule (← spanFrom c.current.span.start) kind name) c₂ d c' := by
    split at h
    · rename_i hopen
      obtain ⟨both, c₂, heat, h⟩ := accepts_bind_iff.1 h
      rcases accepts_eat_iff.1 heat with ⟨himport, rfl, rfl⟩ | ⟨-, rfl, rfl⟩
      · obtain ⟨himport, hpass₂, -⟩ := hc₁.read himport (by simp)
        exact ⟨.openImport, _, _, ⟨hpass₂, by simp [hopen, himport, ImportKind.tokens]⟩, h⟩
      · exact ⟨.openOnly, _, [], ⟨.refl _, by simp [hopen, ImportKind.tokens]⟩, h⟩
    · rename_i hopen
      have himport : c.current.token = .kwImport := hat.resolve_right hopen
      exact ⟨.importOnly, _, [], ⟨.refl _, by simp [himport, ImportKind.tokens]⟩, h⟩
  simp only [accepts_bind_iff, accepts_spanFrom_iff, accepts_pure_iff] at h
  obtain ⟨q, c₃, hq, _, _, ⟨rfl, rfl⟩, rfl, rfl⟩ := h
  obtain ⟨hne, toks', hpass₃, htoks'⟩ := accepts_qualifiedName (hpass₂.proper hc₁) hq
  refine ⟨_, hpass₁.trans (hpass₂.trans hpass₃), ?_⟩
  constructor
  · exact .importModule hne
  · intro ps
    rw [declTokens]
    refine .ofTokens ?_ fun t ht => ?_
    · rw [← htoks, ← htoks']
      simp
    · rcases List.mem_append.1 ht with ht | ht
      · cases kind <;> simp [ImportKind.tokens] at ht <;> rcases ht with rfl | rfl <;> rfl
      · exact isPlain_of_mem_qualifiedName ht
  · refine ⟨_, _, rfl, rfl, ?_⟩
    have hat : c.current.token = .kwImport ∨ c.current.token = .kwOpen := hat
    rcases hat with hat | hat <;> rw [hat] <;> exact ⟨rfl, rfl⟩

namespace Inner

variable {inner : Inner}

/-! ## Parts of declarations -/

theorem accepts_params (hexpr : GivesExpr inner.expr limit levels)
    {params : List (Param Concrete.Expr)} (hc : c.Proper)
    (h : inner.params.Accepts c params c') :
    (∀ p ∈ params, p.names ≠ [] ∧ p.type.WellFormed limit levels) ∧ ∃ toks, c.Passes c' toks ∧
      ∀ ps, Sifts ps toks (paramsTokens .plain params) := by
  have hround : ∀ c p c', c.Proper → atBracket c = true → inner.param.Accepts c p c' →
      ∃ toks, c.Passes c' toks ∧ toks ≠ [] ∧ ParamFrom limit levels p toks := by
    intro c p c' hc hat hp
    obtain ⟨toks, hpass, hfrom⟩ :=
      accepts_param hexpr hc (by simpa [atBracket, Cursor.isAt] using hat) hp
    obtain ⟨tok, us, rfl, -⟩ := hfrom.first
    exact ⟨_, hpass, List.cons_ne_nil tok us, hfrom⟩
  obtain ⟨-, tokss, hpass, heach⟩ := accepts_whileAt hround hc h
  refine ⟨fun p hp => ?_, _, hpass, fun ps => ?_⟩
  · obtain ⟨toks, -, hfrom⟩ := exists_of_forall₂ heach hp
    exact ⟨hfrom.names_ne, hfrom.type⟩
  · rw [paramsTokens_eq]
    exact Sifts.flatten (heach.imp fun _ _ h => h.sifts) ps

/-- An expression after the token `t`, if that is there. -/
theorem accepts_optional (hexpr : GivesExpr inner.expr limit levels) {t : Token}
    {o : Option Concrete.Expr} (ht : Sifts.isPlain t = true) (hc : c.Proper)
    (h : (optional t inner.expr).Accepts c o c') :
    (∀ e ∈ o, e.WellFormed limit levels) ∧ ∃ toks, c.Passes c' toks ∧
      ∀ ps, Sifts ps toks (optionTokens .plain t o) := by
  rcases accepts_optional_iff.1 h with ⟨hat, e, he, rfl⟩ | ⟨-, rfl, rfl⟩
  · obtain ⟨htok, hpass₁, hc₁⟩ := hc.read hat (by rintro rfl; simp [Sifts.isPlain] at ht)
    obtain ⟨-, toks, hpass₂, hfrom⟩ := hexpr _ _ _ hc₁ he
    refine ⟨by simpa using hfrom.wellFormed, _, hpass₁.trans hpass₂, fun ps => ?_⟩
    exact .cons htok ht (hfrom.sifts _)
  · exact ⟨by simp, [], .refl c, fun ps => .nil⟩

theorem accepts_header (hexpr : GivesExpr inner.expr limit levels) {expected : String}
    {header : Header Concrete.Expr} (hc : c.Proper)
    (h : (inner.header expected).Accepts c header c') :
    (∀ p ∈ header.params, p.names ≠ [] ∧ p.type.WellFormed limit levels) ∧
      (∀ e ∈ header.type, e.WellFormed limit levels) ∧ ∃ toks, c.Passes c' toks ∧
        ∀ ps, Sifts ps toks (headerTokens .plain header) := by
  simp only [Inner.header, accepts_bind_iff, accepts_pure_iff] at h
  obtain ⟨n, c₁, hn, params, c₂, hparams, type, c₃, htype, rfl, rfl⟩ := h
  obtain ⟨tok, hpass₁, htok, -⟩ := accepts_name hc hn
  have hc₁ := hpass₁.proper hc
  obtain ⟨hps, toks, hpass₂, hsifts⟩ := accepts_params hexpr hc₁ hparams
  obtain ⟨ho, toks', hpass₃, hsifts'⟩ := accepts_optional hexpr rfl (hpass₂.proper hc₁) htype
  refine ⟨hps, ho, _, hpass₁.trans (hpass₂.trans hpass₃), fun ps => ?_⟩
  rw [headerTokens_eq]
  exact .cons htok rfl ((hsifts _).append (hsifts' _))

/-- Names, a colon and a type. -/
theorem accepts_signature (hexpr : GivesExpr inner.expr limit levels) {start : Nat}
    {expected context : String} {g : Signature Concrete.Expr} (hc : c.Proper)
    (h : (inner.signature start expected context).Accepts c g c') :
    g.names ≠ [] ∧ g.type.WellFormed limit levels ∧ g.span.start = start ∧ ∃ tok toks,
      c.Passes c' (tok :: toks) ∧ tok.token.isIdent = true ∧
      ∀ ps, Sifts ps (tok :: toks) (signatureTokens .plain g) := by
  simp only [signature, accepts_bind_iff, accepts_expect_iff, accepts_spanFrom_iff,
    accepts_pure_iff] at h
  obtain ⟨ns, c₁, hns, _, _, ⟨hcolon, rfl⟩, e, c₃, he, _, _, ⟨rfl, rfl⟩, rfl, rfl⟩ := h
  obtain ⟨hne, toks, hpass₁, htoks⟩ := accepts_names hc hns
  have hc₁ := hpass₁.proper hc
  obtain ⟨hcolon, hpass₂, hc₂⟩ := hc₁.read hcolon (by simp)
  obtain ⟨-, toks', hpass₃, hfrom⟩ := hexpr _ _ _ hc₂ he
  obtain ⟨n, ns', rfl⟩ := List.exists_cons_of_ne_nil hne
  obtain ⟨tok, us, rfl, htok, -⟩ := List.map_eq_cons_iff.1 htoks
  refine ⟨hne, hfrom.wellFormed, rfl, tok, _, hpass₁.trans (hpass₂.trans hpass₃), by rw [htok]; rfl,
    fun ps => ?_⟩
  refine Sifts.append (.ofTokens htoks fun t ht => ?_) (.cons hcolon rfl (hfrom.sifts _))
  obtain ⟨n, -, rfl⟩ := List.mem_map.1 ht
  rfl

theorem accepts_constructorSignature (hexpr : GivesExpr inner.expr limit levels)
    {g : Signature Concrete.Expr} (hc : c.Proper)
    (h : inner.constructorSignature.Accepts c g c') :
    ∃ toks, c.Passes c' toks ∧ toks ≠ [] ∧ ConstructorFrom limit levels g toks := by
  simp only [constructorSignature, accepts_bind_iff, accepts_start_iff] at h
  obtain ⟨_, _, ⟨rfl, rfl⟩, bar, c₁, heat, h⟩ := h
  rcases accepts_eat_iff.1 heat with ⟨hbar, rfl, rfl⟩ | ⟨-, rfl, rfl⟩
  · obtain ⟨hbar, hpass₁, hc₁⟩ := hc.read hbar (by simp)
    obtain ⟨hne, hwf, -, tok, toks, hpass₂, -, hsifts⟩ := accepts_signature hexpr hc₁ h
    refine ⟨_, hpass₁.trans hpass₂, by simp, hne, hwf, fun ps => ?_⟩
    exact SiftsItem.bar hbar (hsifts _).item
  · obtain ⟨hne, hwf, -, tok, toks, hpass, -, hsifts⟩ := accepts_signature hexpr hc h
    exact ⟨_, hpass, by simp, hne, hwf, fun ps => (hsifts _).item⟩

/-! ## Declarations -/

theorem declFrom_ascription (hexpr : GivesExpr inner.expr limit levels) {d : Decl Concrete.Expr}
    (hc : c.Proper) (h : inner.ascription.Accepts c d c') :
    ∃ toks, c.Passes c' toks ∧ DeclFrom limit levels d toks := by
  simp only [ascription, accepts_bind_iff, accepts_start_iff] at h
  obtain ⟨_, _, ⟨rfl, rfl⟩, h⟩ := h
  obtain ⟨g, hg, rfl⟩ := accepts_map_iff.1 h
  obtain ⟨hne, hwf, hstart, tok, toks, hpass, htok, hsifts⟩ := accepts_signature hexpr hc hg
  refine ⟨_, hpass, ?_⟩
  constructor
  · exact .ascription hne hwf
  · intro ps
    rw [Concrete.declTokens_ascription]
    exact hsifts _
  · refine ⟨tok, toks, rfl, ?_, ?_⟩
    · rw [Decl.span, hstart, Cursor.token_eq_of_ahead hpass.ahead]
    · cases ht : tok.token <;> simp_all [Token.isIdent, Token.isVirtual, Token.isSeparator]

/-- The keyword and header of a type or a module, and its block. -/
theorem sifts_blockItem {keyword opener : Lexeme} {t : Token} {toks toks' : List Lexeme}
    {ts : List Token} {items : List (List Lexeme)} {tss : List (List Token)} {ps : List Place}
    (hkeyword : keyword.token = t) (ht : t ∈ ([.kwData, .kwRecord, .kwModule] : List Token))
    (hheader : ∀ ps, Sifts ps toks ts) (hopener : opener.token = .kwWhere)
    (hblock : IsBlock items toks')
    (hitems : List.Forall₂ (SiftsItem (.block (some t) :: ps)) items tss) :
    Sifts (.block none :: ps) (keyword :: (toks ++ opener :: toks'))
      (t :: (ts ++ .kwWhere :: tss.flatten)) := by
  have hsettled : Place.Settled (.block (some t) :: ps) := Place.settled_head t
  have hclause : Place.inClause (.block (some t) :: ps) = false := by
    rw [Place.inClause, List.contains_iff_mem.2 ht]
    rfl
  refine .cons hkeyword ?_ (hsettled.append (hheader _) (hsettled.append
    (Sifts.header hclause hopener) (Sifts.block hsettled hblock hitems)))
  simp only [List.mem_cons, List.not_mem_nil, or_false] at ht
  rcases ht with rfl | rfl | rfl <;> rfl

/-- A data type, at its keyword. -/
theorem declFrom_dataType (hinner : inner.Sound limit levels) {d : Decl Concrete.Expr}
    (hc : c.Proper) (hat : c.token = .kwData) (h : inner.dataType.Accepts c d c') :
    ∃ toks, c.Passes c' toks ∧ DeclFrom limit levels d toks := by
  simp only [dataType, accepts_bind_iff, accepts_advance_iff] at h
  obtain ⟨_, _, ⟨rfl, rfl⟩, header, c₁, hheader, block, c₂, heat, h⟩ := h
  obtain ⟨hkeyword, hpass₁, hc₁⟩ := hc.read hat (by simp)
  obtain ⟨hparams, htype, toks, hpass₂, hsifts⟩ := accepts_header hinner.expr hc₁ hheader
  have hfirst : c.current.token.isVirtual = false ∧ c.current.token.isSeparator = false := by
    rw [hkeyword]
    exact ⟨rfl, rfl⟩
  rcases accepts_eat_iff.1 heat with ⟨hwhere, rfl, rfl⟩ | ⟨-, rfl, rfl⟩
  · simp only [if_true, accepts_bind_iff, accepts_spanFrom_iff, accepts_pure_iff] at h
    obtain ⟨gs, c₃, hgs, _, _, ⟨rfl, rfl⟩, rfl, rfl⟩ := h
    obtain ⟨hwhere, hpass₃, hc₃⟩ := (hpass₂.proper hc₁).read hwhere (by simp)
    obtain ⟨hlevels, items, toks', hpass₄, hblock, hitems⟩ := hinner.constructors _ _ _ hc₃ hgs
    obtain ⟨k, rfl⟩ := Nat.exists_eq_add_one_of_ne_zero hlevels.ne'
    refine ⟨_, hpass₁.trans (hpass₂.trans (hpass₃.trans hpass₄)), ?_⟩
    constructor
    · refine .dataType (fun p hp => (hparams p hp).1) (fun p hp => (hparams p hp).2) htype ?_ ?_
      · intro g hg
        obtain ⟨_, -, hfrom⟩ := exists_of_forall₂ hitems hg
        exact hfrom.names_ne
      · intro g hg
        obtain ⟨_, -, hfrom⟩ := exists_of_forall₂ hitems hg
        exact hfrom.type
    · intro ps
      rw [declTokens, Concrete.signaturesTokens_eq, Style.plain_block]
      refine sifts_blockItem hkeyword (by simp) hsifts hwhere hblock ?_
      rw [List.forall₂_map_right_iff]
      exact hitems.flip.imp fun _ _ h => h.sifts _
    · exact ⟨_, _, rfl, rfl, hfirst⟩
  · simp only [Bool.false_eq_true, if_false, accepts_bind_iff, accepts_spanFrom_iff,
      accepts_pure_iff] at h
    obtain ⟨_, _, ⟨rfl, rfl⟩, rfl, rfl⟩ := h
    refine ⟨_, hpass₁.trans hpass₂, ?_⟩
    constructor
    · exact .emptyData (fun p hp => (hparams p hp).1) (fun p hp => (hparams p hp).2) htype
    · intro ps
      rw [declTokens]
      exact .cons hkeyword rfl (hsifts _)
    · exact ⟨_, _, rfl, rfl, hfirst⟩

/-- A module, at its keyword. -/
theorem declFrom_moduleBlock (hinner : inner.Sound limit levels) {d : Decl Concrete.Expr}
    (hc : c.Proper) (hat : c.token = .kwModule) (h : inner.moduleBlock.Accepts c d c') :
    ∃ toks, c.Passes c' toks ∧ DeclFrom limit levels d toks := by
  simp only [moduleBlock, accepts_bind_iff, accepts_advance_iff, accepts_expect_iff,
    accepts_spanFrom_iff, accepts_pure_iff] at h
  obtain ⟨_, _, ⟨rfl, rfl⟩, q, c₁, hq, params, c₂, hparams, _, _, ⟨hwhere, rfl⟩, ds, c₃, hds, _, _,
    ⟨rfl, rfl⟩, rfl, rfl⟩ := h
  obtain ⟨hkeyword, hpass₁, hc₁⟩ := hc.read hat (by simp)
  obtain ⟨hne, toks, hpass₂, htoks⟩ := accepts_qualifiedName hc₁ hq
  have hc₂ := hpass₂.proper hc₁
  obtain ⟨hps, toks', hpass₃, hsifts⟩ := accepts_params hinner.expr hc₂ hparams
  obtain ⟨hwhere, hpass₄, hc₄⟩ := (hpass₃.proper hc₂).read hwhere (by simp)
  obtain ⟨hlevels, items, toks'', hpass₅, hblock, hitems⟩ := hinner.decls _ _ _ hc₄ hds
  obtain ⟨k, rfl⟩ := Nat.exists_eq_add_one_of_ne_zero hlevels.ne'
  refine ⟨_, hpass₁.trans (hpass₂.trans (hpass₃.trans (hpass₄.trans hpass₅))), ?_⟩
  constructor
  · refine .moduleBlock hne (fun p hp => (hps p hp).1) (fun p hp => (hps p hp).2) fun d hd => ?_
    obtain ⟨_, -, hfrom⟩ := exists_of_forall₂ hitems hd
    exact hfrom.wellFormed
  · intro ps
    have hheader : ∀ ps, Sifts ps (toks ++ toks') (q.tokens ++ paramsTokens .plain params) :=
      fun ps => (Sifts.ofTokens htoks fun t ht => isPlain_of_mem_qualifiedName ht).append (hsifts _)
    have hall : Sifts (.block none :: ps) _ _ :=
      sifts_blockItem hkeyword (by simp) hheader hwhere hblock (siftsItems hitems)
    rw [declTokens, Concrete.declsTokens_eq, Style.plain_block]
    simpa using hall
  · exact ⟨_, _, rfl, rfl, by rw [hkeyword]; exact ⟨rfl, rfl⟩⟩

/-- Members start one after another as their stretches do. -/
theorem members_pairwise {toks : List Lexeme} {items : List (List Lexeme)} {ms : List Member}
    (hblock : IsBlock items toks) (hitems : List.Forall₂ (MemberFrom limit levels) ms items)
    (h : toks.Pairwise fun a b =>
      a.token.isVirtual = false → b.token.isVirtual = false → a.span.start < b.span.start) :
    ms.Pairwise fun m m' => m.start < m'.start := by
  obtain ⟨opening, inside, closing, rfl, -, -, hinside⟩ := hblock.exists_eq
  have hpairs := items_pairwise hinside (List.pairwise_append.1 (List.pairwise_cons.1 h).2).1
  clear h hinside hblock
  induction hitems with
  | nil => exact .nil
  | cons hm hms ih =>
    obtain ⟨hfirst, hothers⟩ := List.pairwise_cons.1 hpairs
    refine .cons (fun m' hm' => ?_) (ih hothers)
    obtain ⟨item', hitem', hfrom⟩ := exists_of_forall₂ hms hm'
    obtain ⟨tok, htok, hvirtual, hstart⟩ := hm.start
    obtain ⟨tok', htok', hvirtual', hstart'⟩ := hfrom.start
    rw [hstart, hstart']
    exact hfirst item' hitem' tok htok tok' htok' hvirtual hvirtual'

/-- A record type, at its keyword. -/
theorem declFrom_recordType (hinner : inner.Sound limit levels) {d : Decl Concrete.Expr}
    (hc : c.Proper) (hat : c.token = .kwRecord) (h : inner.recordType.Accepts c d c') :
    ∃ toks, c.Passes c' toks ∧ DeclFrom limit levels d toks := by
  simp only [recordType, accepts_bind_iff, accepts_advance_iff, accepts_expect_iff,
    accepts_record_iff, accepts_spanFrom_iff, accepts_pure_iff] at h
  obtain ⟨_, _, ⟨rfl, rfl⟩, header, c₁, hheader, _, _, ⟨hwhere, rfl⟩, ms, c₂, hms, _, _,
    ⟨hone, rfl⟩, _, _, ⟨rfl, rfl⟩, rfl, rfl⟩ := h
  obtain ⟨hkeyword, hpass₁, hc₁⟩ := hc.read hat (by simp)
  obtain ⟨hparams, htype, toks, hpass₂, hsifts⟩ := accepts_header hinner.expr hc₁ hheader
  obtain ⟨hwhere, hpass₃, hc₃⟩ := (hpass₂.proper hc₁).read hwhere (by simp)
  obtain ⟨hlevels, items, toks', hpass₄, hblock, hitems⟩ := hinner.members _ _ _ hc₃ hms
  obtain ⟨k, rfl⟩ := Nat.exists_eq_add_one_of_ne_zero hlevels.ne'
  have hperm := members_perm (List.map_eq_nil_iff.1 hone)
  have horder := members_pairwise hblock hitems (hpass₄.starts hc₃)
  refine ⟨_, hpass₁.trans (hpass₂.trans (hpass₃.trans hpass₄)), ?_⟩
  constructor
  · refine .recordType (fun p hp => (hparams p hp).1) (fun p hp => (hparams p hp).2) htype ?_ ?_ ?_
    · intro g hg
      obtain ⟨m, hm, hpick⟩ := List.mem_filterMap.1 hg
      obtain ⟨_, -, hfrom⟩ := exists_of_forall₂ hitems hm
      exact (hfrom.field g (Member.field?_eq_some.1 hpick)).1
    · intro g hg
      obtain ⟨m, hm, hpick⟩ := List.mem_filterMap.1 hg
      obtain ⟨_, -, hfrom⟩ := exists_of_forall₂ hitems hm
      exact (hfrom.field g (Member.field?_eq_some.1 hpick)).2
    · intro d hd
      obtain ⟨m, hm, hpick⟩ := List.mem_filterMap.1 hd
      obtain ⟨_, -, hfrom⟩ := exists_of_forall₂ hitems hm
      exact hfrom.decl d (Member.decl?_eq_some.1 hpick)
  · intro ps
    have hmembers : ∀ ps, List.Forall₂ (SiftsItem ps) items
        (ms.map (Member.tokens .plain .plain)) := by
      intro ps
      rw [List.forall₂_map_right_iff]
      exact hitems.flip.imp fun _ _ h => (h.sifts ps).item
    have hall : Sifts (.block none :: ps) _ _ :=
      sifts_blockItem hkeyword (by simp) hsifts hwhere hblock (hmembers _)
    rw [← Style.plain_block, ← plain_arrange_members hperm horder] at hall
    exact declTokens_recordType ▸ hall
  · exact ⟨_, _, rfl, rfl, by rw [hkeyword]; exact ⟨rfl, rfl⟩⟩

theorem head?_of_leadsWithRecord {e : Concrete.Expr} (h : e.leadsWithRecord = true) (s : Style) :
    (exprTokens s e).head? = some .kwRecord := by
  unfold Concrete.Expr.leadsWithRecord at h
  split at h
  · rfl
  · rfl
  · simp at h

/-- The patterns of a clause, each after a bar. -/
theorem accepts_withPatterns (hexpr : GivesExpr inner.expr limit levels)
    {es : List Concrete.Expr} (hc : c.Proper)
    (h : Accepts (whileAt (·.isAt .pipe) (do let _ ← advance; inner.expr)) c es c') :
    (∀ e ∈ es, e.WellFormed limit levels) ∧ ∃ toks, c.Passes c' toks ∧
      ∀ ps, Place.Settled ps → Sifts ps toks (exprsTokens .plain [.pipe] es) := by
  have hround : ∀ c e c', c.Proper → c.isAt .pipe = true →
      Accepts (do let _ ← advance; inner.expr) c e c' →
      ∃ toks, c.Passes c' toks ∧ toks ≠ [] ∧ e.WellFormed limit levels ∧
        ∀ ps, Place.Settled ps → Sifts ps toks ([.pipe] ++ exprTokens .plain e) := by
    intro c e c' hc hat he
    simp only [accepts_bind_iff, accepts_advance_iff] at he
    obtain ⟨_, _, ⟨rfl, rfl⟩, he⟩ := he
    obtain ⟨hbar, hpass₁, hc₁⟩ := hc.read (of_decide_eq_true hat) (by simp)
    obtain ⟨-, toks, hpass₂, hfrom⟩ := hexpr _ _ _ hc₁ he
    refine ⟨_, hpass₁.trans hpass₂, by simp, hfrom.wellFormed, fun ps hps => ?_⟩
    exact hps.append (Sifts.bar hps hbar) (hfrom.sifts ps)
  obtain ⟨-, tokss, hpass, heach⟩ := accepts_whileAt hround hc h
  refine ⟨fun e he => ?_, _, hpass, fun ps hps => ?_⟩
  · obtain ⟨_, -, hwf, -⟩ := exists_of_forall₂ heach he
    exact hwf
  · rw [exprsTokens_eq]
    exact Sifts.flattenIn hps (heach.imp fun _ _ h => h.2 ps hps)

/-- The `where` block of a clause, if there is one. -/
theorem accepts_locals (hinner : inner.Sound limit levels)
    {locals : Option (List (Decl Concrete.Expr))} (hc : c.Proper)
    (h : (optional .kwWhere inner.decls).Accepts c locals c') :
    (locals.getD [] ≠ [] → 0 < levels) ∧
      (∀ d ∈ locals.getD [], Concrete.Decl.WellFormed limit (levels - 1) d) ∧
      ∃ toks, c.Passes c' toks ∧ ∀ ps, Place.Settled ps → Place.inClause ps = true →
        Sifts ps toks (if (locals.getD []).isEmpty then [] else
          .kwWhere :: Style.plain.block (declsTokens .plain .plain (locals.getD []))) := by
  rcases accepts_optional_iff.1 h with ⟨hwhere, ds, hds, rfl⟩ | ⟨-, rfl, rfl⟩
  · obtain ⟨hwhere, hpass₁, hc₁⟩ := hc.read hwhere (by simp)
    obtain ⟨hlevels, items, toks, hpass₂, hblock, hitems⟩ := hinner.decls _ _ _ hc₁ hds
    refine ⟨fun _ => hlevels, fun d hd => ?_, _, hpass₁.trans hpass₂, fun ps hps hclause => ?_⟩
    · obtain ⟨_, -, hfrom⟩ := exists_of_forall₂ hitems hd
      exact hfrom.wellFormed
    · have hheads : ∀ item ∈ items, ∃ tok us, item = tok :: us ∧ tok.token.isSeparator = false ∧
          tok.token ≠ .blockEnd := by
        intro item hitem
        obtain ⟨d, -, hfrom⟩ := exists_of_forall₂ hitems.flip hitem
        obtain ⟨tok, us, rfl, -, hvirtual, hsep⟩ := hfrom.first
        exact ⟨tok, us, rfl, hsep, by rintro hend; simp [hend, Token.isVirtual] at hvirtual⟩
      have hempty : items.isEmpty = ds.isEmpty := by
        cases hitems <;> rfl
      have hall := Sifts.whereBlock hps hclause hwhere hblock (siftsItems hitems) hheads
      rw [hempty] at hall
      rw [Option.getD_some, Style.plain_block, Concrete.declsTokens_eq]
      exact hall
  · exact ⟨by simp, by simp, [], .refl c, fun ps _ _ => .nil⟩

/-- A clause, at a token that starts no other declaration. -/
theorem declFrom_clause (hinner : inner.Sound limit levels) {d : Decl Concrete.Expr}
    (hc : c.Proper) (hat : c.token ≠ .kwRecord) (h : inner.clause.Accepts c d c') :
    ∃ toks, c.Passes c' toks ∧ DeclFrom limit levels d toks := by
  simp only [clause, accepts_bind_iff, accepts_start_iff] at h
  obtain ⟨_, _, ⟨rfl, rfl⟩, lhs, c₁, hlhs, es, c₂, hes, withExpr, c₃, hwith, rhs, c₄, hrhs, h⟩ := h
  obtain ⟨-, toks₁, hpass₁, hfrom⟩ := hinner.expr _ _ _ hc hlhs
  have hc₁ := hpass₁.proper hc
  obtain ⟨hwfs, toks₂, hpass₂, hpatterns⟩ := accepts_withPatterns hinner.expr hc₁ hes
  have hc₂ := hpass₂.proper hc₁
  obtain ⟨hwfWith, toks₃, hpass₃, hwith⟩ := accepts_optional hinner.expr rfl hc₂ hwith
  have hc₃ := hpass₃.proper hc₂
  obtain ⟨hwfRhs, toks₄, hpass₄, hrhs⟩ := accepts_optional hinner.expr rfl hc₃ hrhs
  have hc₄ := hpass₄.proper hc₃
  split at h
  · simp at h
  · rename_i hdefined
    simp only [accepts_bind_iff, accepts_spanFrom_iff, accepts_pure_iff] at h
    obtain ⟨locals, c₅, hlocals, _, _, ⟨rfl, rfl⟩, rfl, rfl⟩ := h
    obtain ⟨hroom, hwfLocals, toks₅, hpass₅, hlocals⟩ := accepts_locals hinner hc₄ hlocals
    obtain ⟨tok, us, rfl, hhead, hkind⟩ := hfrom.first
    obtain rfl : c.current = tok := Cursor.token_eq_of_ahead hpass₁.ahead
    have hstarts : (c.current.token.startsAtom || c.current.token.startsTail) = true := by
      cases hform : lhs.isForm <;> simp_all
    refine ⟨_, hpass₁.trans (hpass₂.trans (hpass₃.trans (hpass₄.trans hpass₅))), ?_⟩
    constructor
    · refine .clause ?_ hfrom.wellFormed hwfs hwfWith hwfRhs ?_ hroom hwfLocals
      · cases hlead : lhs.leadsWithRecord with
        | false => rfl
        | true =>
          rw [head?_of_leadsWithRecord hlead] at hhead
          exact absurd (Option.some.inj hhead).symm hat
      · cases withExpr <;> cases rhs <;> simp_all
    · intro ps
      have hsettled : Place.Settled (.block (some c.current.token) :: ps) := Place.settled_head _
      have hclause : Place.inClause (.block (some c.current.token) :: ps) = true := by
        rw [Place.inClause]
        cases ht : c.current.token <;>
          first | rfl | exact absurd ht hat | (rw [ht] at hstarts; cases hstarts)
      have hall := (hfrom.sifts (.block none :: ps)).append (hsettled.append (hpatterns _ hsettled)
        (hsettled.append (hwith _) (hsettled.append (hrhs _) (hlocals _ hsettled hclause))))
      rw [declTokens, exprsTokens_eq, List.flatMap_singleton]
      simpa only [List.nil_append, List.append_assoc] using hall
    · refine ⟨_, _, rfl, rfl, ?_⟩
      cases ht : c.current.token <;>
        first | exact ⟨rfl, rfl⟩ | (rw [ht] at hstarts; cases hstarts)

theorem declFrom_signatureOrClause (hinner : inner.Sound limit levels) {d : Decl Concrete.Expr}
    (hc : c.Proper) (hat : c.token ≠ .kwRecord) (h : inner.signatureOrClause.Accepts c d c') :
    ∃ toks, c.Passes c' toks ∧ DeclFrom limit levels d toks := by
  simp only [signatureOrClause, accepts_bind_iff, accepts_look_iff] at h
  obtain ⟨_, _, ⟨rfl, rfl⟩, h⟩ := h
  split at h
  · exact declFrom_ascription hinner.expr hc h
  · exact declFrom_clause hinner hc hat h
  · simp only [accepts_bind_iff, accepts_look_iff] at h
    obtain ⟨_, _, -, h⟩ := h
    simp at h

theorem declFrom_declaration {options : Options} (hinner : inner.Sound options.maxPrecedence levels)
    {d : Decl Concrete.Expr} (hc : c.Proper) (h : (inner.declaration options).Accepts c d c') :
    ∃ toks, c.Passes c' toks ∧ DeclFrom options.maxPrecedence levels d toks := by
  simp only [declaration, accepts_bind_iff, accepts_look_iff] at h
  obtain ⟨_, _, ⟨rfl, rfl⟩, h⟩ := h
  split at h
  · exact declFrom_dataType hinner hc ‹_› h
  · exact declFrom_recordType hinner hc ‹_› h
  · exact declFrom_moduleBlock hinner hc ‹_› h
  · exact declFrom_importModule hc (.inl ‹_›) h
  · exact declFrom_importModule hc (.inr ‹_›) h
  · exact declFrom_fixity hc ‹_› h
  · simp at h
  · simp at h
  · exact declFrom_signatureOrClause hinner hc ‹_› h

theorem memberFrom_member {options : Options} (hinner : inner.Sound options.maxPrecedence levels)
    {m : Member} (hc : c.Proper) (h : (inner.member options).Accepts c m c') :
    ∃ toks, c.Passes c' toks ∧ MemberFrom options.maxPrecedence levels m toks := by
  simp only [member, accepts_bind_iff, accepts_look_iff] at h
  obtain ⟨_, _, ⟨rfl, rfl⟩, h⟩ := h
  split at h
  · rename_i hat
    obtain ⟨_, _, hadv, h⟩ := accepts_bind_iff.1 h
    obtain ⟨rfl, rfl⟩ := accepts_advance_iff.1 hadv
    obtain ⟨n, hn, rfl⟩ := accepts_map_iff.1 h
    obtain ⟨hkeyword, hpass₁, hc₁⟩ := hc.read hat (by simp)
    obtain ⟨tok, hpass₂, htok, hspan⟩ := accepts_name hc₁ hn
    refine ⟨_, hpass₁.trans hpass₂, by simp, by simp, fun ps => ?_, tok, by simp, ?_, ?_⟩
    · exact .cons hkeyword rfl (.cons htok rfl .nil)
    · rw [htok]
      rfl
    · rw [Member.start, hspan]
  · rename_i hat
    obtain ⟨_, _, hadv, h⟩ := accepts_bind_iff.1 h
    obtain ⟨rfl, rfl⟩ := accepts_advance_iff.1 hadv
    obtain ⟨g, hg, rfl⟩ := accepts_map_iff.1 h
    obtain ⟨hkeyword, hpass₁, hc₁⟩ := hc.read hat (by simp)
    obtain ⟨hne, hwf, hstart, tok, toks, hpass₂, -, hsifts⟩ := accepts_signature hinner.expr hc₁ hg
    refine ⟨_, hpass₁.trans hpass₂, ?_, by simp, fun ps => ?_, c.current, by simp, ?_, hstart⟩
    · rintro _ ⟨⟩
      exact ⟨hne, hwf⟩
    · exact .cons hkeyword rfl (hsifts _)
    · rw [hkeyword]
      rfl
  · obtain ⟨d, hd, rfl⟩ := accepts_map_iff.1 h
    obtain ⟨toks, hpass, hfrom⟩ := declFrom_declaration hinner hc hd
    refine ⟨toks, hpass, by simp, ?_, hfrom.sifts, ?_⟩
    · rintro _ ⟨⟩
      exact hfrom.wellFormed
    · obtain ⟨tok, us, rfl, hstart, hvirtual, -⟩ := hfrom.first
      exact ⟨tok, List.mem_cons_self, hvirtual, hstart⟩

/-! ## All levels -/

/-- What the parsers for `levels` levels give was read from its stretch. -/
theorem sound (options : Options) :
    ∀ levels, (Parser.inner options levels).Sound options.maxPrecedence levels := by
  intro levels
  induction levels with
  | zero =>
    have hfail : ∀ {α : Type} {c c' : Cursor} {a : α},
        ¬ (failHere (.nestingTooDeep options.maxNesting) : Parser α).Accepts c a c' :=
      not_accepts_failHere
    exact ⟨fun _ _ _ _ h => absurd h hfail, fun _ _ _ _ h => absurd h hfail,
      fun _ _ _ _ h => absurd h hfail, fun _ _ _ _ h => absurd h hfail⟩
  | succ levels ih =>
    refine ⟨givesExpr_expression ih.expr ih.decls, fun c ds c' hc h => ?_, fun c gs c' hc h => ?_,
      fun c ms c' hc h => ?_⟩
    · refine ⟨levels.succ_pos, accepts_block (fun c d c' hc hd => ?_) hc h⟩
      obtain ⟨toks, hpass, hfrom⟩ := declFrom_declaration ih hc hd
      obtain ⟨tok, us, rfl, -⟩ := hfrom.first
      exact ⟨_, hpass, List.cons_ne_nil tok us, hfrom⟩
    · exact ⟨levels.succ_pos, accepts_block
        (fun c g c' hc hg => accepts_constructorSignature ih.expr hc hg) hc h⟩
    · refine ⟨levels.succ_pos, accepts_block (fun c m c' hc hm => ?_) hc h⟩
      obtain ⟨toks, hpass, hfrom⟩ := memberFrom_member ih hc hm
      obtain ⟨tok, htok, -⟩ := hfrom.start
      exact ⟨toks, hpass, List.ne_nil_of_mem htok, hfrom⟩

end Inner

/-! ## Files -/

/-- A file without problems is a block that is read up to the end of file. -/
theorem accepts_of_file {options : Options} {ds : List (Decl Concrete.Expr)}
    (h : file options c = (ds, [])) :
    ∃ c', (inner options options.maxNesting).decls.Accepts c ds c' ∧ c'.token = .eof := by
  rw [file] at h
  cases hr : (inner options options.maxNesting).decls c with
  | mk r c' =>
    obtain ⟨problems, result⟩ := r
    rw [hr] at h
    cases result with
    | error d => simp [Report.settle] at h
    | ok ds' =>
      simp only [Report.settle, Option.getD_some, Prod.mk.injEq, List.append_eq_nil_iff] at h
      obtain ⟨rfl, rfl, hleft⟩ := h
      refine ⟨c', hr, ?_⟩
      by_contra heof
      simp [Cursor.isAt, heof] at hleft

/-- A file without problems is well formed, and what it was read from
contributes what it is written as. -/
theorem file_sound {options : Options} {ds : List (Decl Concrete.Expr)} (hc : c.Proper)
    (h : file options c = (ds, [])) :
    0 < options.maxNesting ∧
      (∀ d ∈ ds, Concrete.Decl.WellFormed options.maxPrecedence (options.maxNesting - 1) d) ∧
      Sifts [] c.ahead (Concrete.fileTokens .plain .plain ds) := by
  obtain ⟨c', hdecls, hend⟩ := accepts_of_file h
  obtain ⟨hlevels, items, toks, hpass, hblock, hitems⟩ :=
    (Inner.sound options options.maxNesting).decls _ _ _ hc hdecls
  refine ⟨hlevels, fun d hd => ?_, ?_⟩
  · obtain ⟨_, -, hfrom⟩ := exists_of_forall₂ hitems hd
    exact hfrom.wellFormed
  · have hahead := hpass.ahead
    rw [(hpass.proper hc).ahead_eq_nil hend, List.append_nil] at hahead
    rw [hahead, Concrete.fileTokens, Style.plain_block, Concrete.declsTokens_eq]
    exact Sifts.block Place.settled_nil hblock (siftsItems hitems)

end Parser

end Offside
