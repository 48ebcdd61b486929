-- SUMMARY: The parser reads back every well-formed list of declarations from its written form.
import Mathlib.Data.List.Basic
import Offside.Proofs.Parser.ExprComplete
import Offside.Proofs.Parser.Members

/-! # Reading written declarations

What a declaration is follows from its keyword, or from the first colon, equals
sign, `with` or bar outside all brackets and blocks. `Inner.Complete` says that
the parsers for what nests one level deeper read what they stand for, and holds
at every level: `Inner.complete`. -/

namespace Offside

/-- May stand first in a typed parameter. -/
def Token.startsParam (t : Token) : Bool := t = .lparen || t = .lbrace

namespace Parser

open Concrete (exprTokens paramTokens headerTokens signatureTokens declTokens optionTokens
  exprRespan paramRespan headerRespan signatureRespan declRespan)

/-! ## Members up to spans -/

/-- A member with its spans changed. -/
def Member.respan (f : Respan) : Member → Member
  | .builder n => .builder (n.respan f)
  | .field g => .field (signatureRespan f g)
  | .decl d => .decl (declRespan f d)

/-- Members that are the same up to spans hold the same of each kind. -/
theorem filterMap_respan {α : Type} {pick : Member → Option α} {change : α → α}
    (h : ∀ m, (pick m).map change = pick (m.respan .bare)) {ms ms' : List Member}
    (hms : ms.map (Member.respan .bare) = ms'.map (Member.respan .bare)) :
    (ms.filterMap pick).map change = (ms'.filterMap pick).map change := by
  have hpick : ∀ ms : List Member,
      (ms.filterMap pick).map change = (ms.map (Member.respan .bare)).filterMap pick := by
    intro ms
    rw [List.map_filterMap, List.filterMap_map]
    exact List.filterMap_congr fun m _ => h m
  rw [hpick, hpick, hms]

/-! ## Parts of declarations -/

theorem reads_precedence {limit n : Nat} (hlimit : n ≤ limit) (hsize : n < UInt64.size) :
    Reads (precedence limit) [.integer (.ofNat n)] id n fun _ => true := by
  have hvalue : (UInt64.ofNat n).toNat = n := UInt64.toNat_ofNat_of_lt hsize
  refine Reads.lookToken rfl (Reads.advance_bind (by simp) fun tok _ => ?_)
  simp only [hvalue, hlimit, if_true]
  exact Reads.pure rfl

theorem reads_fixityDeclaration {options : Options} {span : Span} {fixity : Fixity}
    {operators : List Name} (hlimit : fixity.precedence ≤ options.maxPrecedence)
    (hsize : fixity.precedence < UInt64.size) (hne : operators ≠ []) (outer s : Style) :
    Reads (fixityDeclaration options fixity.assoc)
      (declTokens outer s (.fixity span fixity operators)) (declRespan .bare)
      (declRespan .bare (.fixity span fixity operators)) Reads.endsItem := by
  rw [declTokens]
  refine Reads.advance_bind (by simp) fun _ _ => ?_
  refine Reads.then_ (reads_precedence hlimit hsize) fun n hn => ?_
  obtain rfl : n = fixity.precedence := hn
  refine Reads.bindLast ((Reads.names hne).mono fun t h => ?_) fun names hnames => ?_
  · rcases Reads.endsItem_cases h with rfl | rfl | rfl <;> rfl
  · refine Reads.spanFrom fun span' => Reads.pure ?_
    simp only [declRespan, Respan.bare_other, hnames]

theorem reads_importModule {span : Span} {kind : ImportKind} {q : QualifiedName}
    (hq : q.segments ≠ []) (outer s : Style) :
    Reads importModule (declTokens outer s (.importModule span kind q)) (declRespan .bare)
      (declRespan .bare (.importModule span kind q)) Reads.endsItem := by
  obtain ⟨text, us, hhead⟩ := Concrete.qualified_head hq
  have hrest : ∀ n : Nat, Reads (do
        let name ← qualifiedName "a module name"
        return .importModule (← Parser.spanFrom n) kind name) q.tokens (declRespan .bare)
      (declRespan .bare (.importModule span kind q)) Reads.endsItem := by
    intro n
    refine Reads.bindLast ((Reads.qualifiedName hq).mono fun t h => ?_) fun q' hq' => ?_
    · rcases Reads.endsItem_cases h with rfl | rfl | rfl <;> rfl
    · refine Reads.spanFrom fun span' => Reads.pure ?_
      simp only [declRespan, Respan.bare_other, hq']
  rw [declTokens]
  cases kind with
  | importOnly =>
    refine Reads.advance_bind (by simp) fun keyword hkeyword => ?_
    simp only [hkeyword, reduceCtorEq, if_false]
    exact hrest _
  | openOnly =>
    refine Reads.advance_bind (by simp) fun keyword hkeyword => ?_
    simp only [hkeyword, if_true]
    refine Reads.eatNone_bind (fun rest _ => ?_) (hrest _)
    rw [hhead]
    simp
  | openImport =>
    refine Reads.advance_bind (by simp) fun keyword hkeyword => ?_
    simp only [hkeyword, if_true]
    exact Reads.eat_bind (by simp) (hrest _)

namespace Inner

variable {inner : Inner} {limit levels : Nat} {outer sep : Token}

theorem reads_params {s : Style} {ps : List (Param Concrete.Expr)}
    (hnames : ∀ p ∈ ps, p.names ≠ []) (htypes : ∀ p ∈ ps, ReadsExpr inner.expr s p.type) :
    Reads inner.params (ps.flatMap (paramTokens s)) (List.map (paramRespan .bare))
      (ps.map (paramRespan .bare)) fun t => !t.startsParam && true := by
  refine Reads.whileAt Token.startsParam (fun _ => true) (fun _ => rfl) (fun p hp => ?_)
    fun p hp => ?_
  · exact reads_param (hnames p hp) (htypes p hp)
  · refine ⟨_, _, by rw [Concrete.paramTokens_eq]; rfl, ?_, rfl⟩
    split <;> rfl

theorem option_head {s : Style} {t t' : Token} {o : Option Concrete.Expr}
    (h : t' ∈ (optionTokens s t o).head?) : t' = t := by
  cases o with
  | none => simp [optionTokens] at h
  | some e =>
    rw [optionTokens, List.head?_cons, Option.mem_some_iff] at h
    exact h.symm

theorem reads_option {s : Style} {t : Token} {o : Option Concrete.Expr} (ht : t ≠ .eof)
    (h : ∀ e ∈ o, ReadsExpr inner.expr s e) :
    Reads (optional t inner.expr) (optionTokens s t o) (Option.map (exprRespan .bare))
      (o.map (exprRespan .bare)) fun t' => t' != t && t'.endsExpr := by
  cases o with
  | none =>
    rw [optionTokens]
    exact Reads.optionalNone.mono fun t' h => by simpa using (Bool.and_eq_true_iff.1 h).1
  | some e =>
    rw [optionTokens]
    exact (Reads.optionalSome ht (h e rfl)).mono fun t' h => (Bool.and_eq_true_iff.1 h).2

theorem reads_header {s : Style} {expected : String} {h : Header Concrete.Expr}
    (hnames : ∀ p ∈ h.params, p.names ≠ [])
    (hparams : ∀ p ∈ h.params, ReadsExpr inner.expr s p.type)
    (htype : ∀ e ∈ h.type, ReadsExpr inner.expr s e) :
    Reads (inner.header expected) (headerTokens s h) (headerRespan .bare) (headerRespan .bare h)
      fun t => t != .colon && t.endsExpr := by
  rw [Concrete.headerTokens_eq, Concrete.paramsTokens_eq]
  refine Reads.name_bind h.name fun name hname => ?_
  refine Reads.bind (reads_params hnames hparams) (fun rest hrest => ?_) fun params hps => ?_
  · refine Token.first_append (fun t => !t.startsParam && true)
      (fun t ht => by rw [option_head ht]; rfl) ?_
    cases hf : Token.first rest <;> first | rfl | (rw [hf] at hrest; cases hrest)
  · refine Reads.bindLast (reads_option (by simp) htype) fun type hty => Reads.pure ?_
    rw [Concrete.headerRespan_eq, Concrete.headerRespan_eq, hname, hps, hty]

theorem reads_signature {s : Style} {n : Nat} {expected context : String}
    {g : Signature Concrete.Expr} (hnames : g.names ≠ [])
    (htype : ReadsExpr inner.expr s g.type) :
    Reads (inner.signature n expected context) (signatureTokens s g) (signatureRespan .bare)
      (signatureRespan .bare g) Token.endsExpr := by
  refine Reads.bind (Reads.names hnames) (fun _ _ => rfl) fun names hns => ?_
  refine Reads.expect_bind (by simp) (Reads.bindLast htype fun type hty => ?_)
  refine Reads.spanFrom fun span' => Reads.pure ?_
  rw [Concrete.signatureRespan_eq, Concrete.signatureRespan_eq, hns, hty]
  rfl

theorem reads_constructorSignature {s : Style} {g : Signature Concrete.Expr} (hnames : g.names ≠ [])
    (htype : ReadsExpr inner.expr s g.type) :
    Reads inner.constructorSignature (signatureTokens s g) (signatureRespan .bare)
      (signatureRespan .bare g) Reads.endsItem := by
  refine Reads.start fun n => Reads.eatNone_bind (fun rest _ => ?_) ?_
  · obtain ⟨m, ms, hg⟩ := List.exists_cons_of_ne_nil hnames
    simp [signatureTokens, hg, Name.token]
  · exact (reads_signature hnames htype).mono fun _ => Token.endsExpr_of_endsItem

/-! ## Declarations -/

/-- `inner` reads what nests at most `levels` deep. The blocks of declarations
have the separator `outer`, those of `let` forms the separator `sep`. -/
structure Complete (limit : Nat) (sep : Token) (inner : Inner) (levels : Nat) : Prop where
  expr : ∀ e : Concrete.Expr, e.WellFormed limit levels → ReadsExpr inner.expr (.marked sep) e
  decls : ∀ (outer : Token) (n : Nat) (ds : List (Decl Concrete.Expr)), outer.isSeparator = true →
    levels = n + 1 → (∀ d ∈ ds, Concrete.Decl.WellFormed limit n d) →
    Reads inner.decls ((Style.marked outer).block (ds.map (declTokens (.marked outer) (.marked sep))))
      (List.map (declRespan .bare)) (ds.map (declRespan .bare)) fun _ => true
  constructors : ∀ (outer : Token) (n : Nat) (gs : List (Signature Concrete.Expr)),
    outer.isSeparator = true → levels = n + 1 → (∀ g ∈ gs, g.names ≠ []) →
    (∀ g ∈ gs, g.type.WellFormed limit n) →
    Reads inner.constructors ((Style.marked outer).block (gs.map (signatureTokens (.marked sep))))
      (List.map (signatureRespan .bare)) (gs.map (signatureRespan .bare)) fun _ => true
  members : ∀ (outer : Token) (n : Nat) (builder : Option Name)
    (fields : List (Signature Concrete.Expr)) (ds : List (Decl Concrete.Expr)),
    outer.isSeparator = true → levels = n + 1 → (∀ g ∈ fields, g.names ≠ []) →
    (∀ g ∈ fields, g.type.WellFormed limit n) → (∀ d ∈ ds, Concrete.Decl.WellFormed limit n d) →
    Reads inner.members ((Style.marked outer).block
        ((Parser.members builder fields ds).map (Member.tokens (.marked outer) (.marked sep))))
      (List.map (Member.respan .bare))
      ((Parser.members builder fields ds).map (Member.respan .bare)) fun _ => true

theorem reads_emptyData (hinner : inner.Complete limit sep levels) {span : Span}
    {header : Header Concrete.Expr} (names : ∀ p ∈ header.params, p.names ≠ [])
    (params : ∀ p ∈ header.params, p.type.WellFormed limit levels)
    (type : ∀ e ∈ header.type, e.WellFormed limit levels) :
    Reads inner.dataType (declTokens (.marked outer) (.marked sep) (.emptyData span header))
      (declRespan .bare) (declRespan .bare (.emptyData span header)) Reads.endsItem := by
  rw [declTokens]
  refine Reads.advance_bind (by simp) fun _ _ => ?_
  refine Reads.bindLast ((reads_header names (fun p hp => hinner.expr _ (params p hp))
    fun e he => hinner.expr _ (type e he)).mono fun t h => ?_) fun header' hheader => ?_
  · rcases Reads.endsItem_cases h with rfl | rfl | rfl <;> rfl
  · refine Reads.eatNone_bind (fun rest h => ?_) (Reads.spanFrom fun span' => Reads.pure ?_)
    · intro heq
      rw [List.nil_append] at heq
      rw [heq] at h
      cases h
    · simp only [declRespan, Respan.bare_other, hheader]

theorem reads_dataType (hinner : inner.Complete limit sep (levels + 1))
    (houter : outer.isSeparator = true) {span : Span}
    {header : Header Concrete.Expr} {constructors : List (Signature Concrete.Expr)}
    (names : ∀ p ∈ header.params, p.names ≠ [])
    (params : ∀ p ∈ header.params, p.type.WellFormed limit (levels + 1))
    (type : ∀ e ∈ header.type, e.WellFormed limit (levels + 1))
    (constructorNames : ∀ g ∈ constructors, g.names ≠ [])
    (constructorTypes : ∀ g ∈ constructors, g.type.WellFormed limit levels) :
    Reads inner.dataType
      (declTokens (.marked outer) (.marked sep) (.dataType span header constructors))
      (declRespan .bare) (declRespan .bare (.dataType span header constructors))
      Reads.endsItem := by
  rw [declTokens, Concrete.signaturesTokens_eq]
  refine Reads.advance_bind (by simp) fun _ _ => ?_
  refine Reads.bind (reads_header names (fun p hp => hinner.expr _ (params p hp))
    fun e he => hinner.expr _ (type e he)) (fun _ _ => rfl) fun header' hheader => ?_
  refine Reads.eat_bind (by simp) ?_
  refine Reads.bindLast ((hinner.constructors outer levels constructors houter rfl constructorNames
    constructorTypes).mono fun _ _ => rfl) fun constructors' hcons => ?_
  refine Reads.spanFrom fun span' => Reads.pure ?_
  simp only [declRespan, Concrete.signaturesRespan_eq, Respan.bare_other, hheader, hcons]

theorem reads_recordType (hinner : inner.Complete limit sep (levels + 1))
    (houter : outer.isSeparator = true) {span : Span} {header : Header Concrete.Expr}
    {builder : Option Name} {fields : List (Signature Concrete.Expr)}
    {decls : List (Decl Concrete.Expr)} (names : ∀ p ∈ header.params, p.names ≠ [])
    (params : ∀ p ∈ header.params, p.type.WellFormed limit (levels + 1))
    (type : ∀ e ∈ header.type, e.WellFormed limit (levels + 1))
    (fieldNames : ∀ g ∈ fields, g.names ≠ [])
    (fieldTypes : ∀ g ∈ fields, g.type.WellFormed limit levels)
    (each : ∀ d ∈ decls, Concrete.Decl.WellFormed limit levels d) :
    Reads inner.recordType
      (declTokens (.marked outer) (.marked sep) (.recordType span header builder fields decls))
      (declRespan .bare) (declRespan .bare (.recordType span header builder fields decls))
      Reads.endsItem := by
  rw [declTokens_recordType_marked]
  refine Reads.advance_bind (by simp) fun _ _ => ?_
  refine Reads.bind (reads_header names (fun p hp => hinner.expr _ (params p hp))
    fun e he => hinner.expr _ (type e he)) (fun _ _ => rfl) fun header' hheader => ?_
  refine Reads.expect_bind (by simp) ?_
  refine Reads.bindLast ((hinner.members outer levels builder fields decls houter rfl fieldNames
    fieldTypes each).mono fun _ _ => rfl) fun ms hms => ?_
  -- Each kind of member is picked out after reading as it was put in.
  have hbuilders : (ms.filterMap Member.builder?).map (Name.respan .bare) =
      builder.toList.map (Name.respan .bare) := by
    rw [filterMap_respan (fun m => by cases m <;> rfl) hms, filterMap_builder?_members]
  have hfields : (ms.filterMap Member.field?).map (signatureRespan .bare) =
      fields.map (signatureRespan .bare) := by
    rw [filterMap_respan (fun m => by cases m <;> rfl) hms, filterMap_field?_members]
  have hdecls : (ms.filterMap Member.decl?).map (declRespan .bare) =
      decls.map (declRespan .bare) := by
    rw [filterMap_respan (fun m => by cases m <;> rfl) hms, filterMap_decl?_members]
  have hhead : (ms.filterMap Member.builder?).head?.map (Name.respan .bare) =
      builder.map (Name.respan .bare) := by
    rw [← List.head?_map, hbuilders]
    cases builder <;> rfl
  have htail : (ms.filterMap Member.builder?).tail = [] := by
    have hlen := congrArg List.length hbuilders
    simp only [List.length_map] at hlen
    apply List.eq_nil_of_length_eq_zero
    rw [List.length_tail, hlen]
    cases builder <;> rfl
  have hnone : Reads (record ((ms.filterMap Member.builder?).tail.map fun name =>
      Problem.secondConstructor.at name.span)) [] id () fun _ => true := by
    intro c rest _ _ _
    exact ⟨(), accepts_record_iff.2 ⟨by rw [htail]; rfl, by simp⟩, rfl⟩
  refine Reads.bindLast (hnone.mono fun _ _ => rfl) fun _ _ => ?_
  refine Reads.spanFrom fun span' => Reads.pure ?_
  simp only [declRespan, Concrete.signaturesRespan_eq, Concrete.declsRespan_eq, Respan.bare_other,
    hheader]
  rw [← hhead, ← hfields, ← hdecls]
  rfl

theorem reads_moduleBlock (hinner : inner.Complete limit sep (levels + 1))
    (houter : outer.isSeparator = true) {span : Span} {name : QualifiedName}
    {params : List (Param Concrete.Expr)} {decls : List (Decl Concrete.Expr)}
    (segments : name.segments ≠ []) (names : ∀ p ∈ params, p.names ≠ [])
    (types : ∀ p ∈ params, p.type.WellFormed limit (levels + 1))
    (each : ∀ d ∈ decls, Concrete.Decl.WellFormed limit levels d) :
    Reads inner.moduleBlock
      (declTokens (.marked outer) (.marked sep) (.moduleBlock span name params decls))
      (declRespan .bare) (declRespan .bare (.moduleBlock span name params decls))
      Reads.endsItem := by
  have hwritten : declTokens (.marked outer) (.marked sep) (.moduleBlock span name params decls) =
      .kwModule :: (name.tokens ++ (params.flatMap (paramTokens (.marked sep)) ++ .kwWhere ::
        (Style.marked outer).block (decls.map (declTokens (.marked outer) (.marked sep))))) := by
    rw [declTokens, Concrete.paramsTokens_eq, Concrete.declsTokens_eq]
    simp only [List.cons_append, List.append_assoc]
  rw [hwritten]
  refine Reads.advance_bind (by simp) fun _ _ => ?_
  refine Reads.bind (Reads.qualifiedName segments) (fun rest _ => ?_) fun name' hname => ?_
  · cases params with
    | nil => rfl
    | cons p ps =>
      rw [List.flatMap_cons, Concrete.paramTokens_eq]
      cases p.isImplicit <;> rfl
  · refine Reads.bind (reads_params names fun p hp => hinner.expr _ (types p hp)) (fun _ _ => rfl)
      fun params' hparams => ?_
    refine Reads.expect_bind (by simp) ?_
    refine Reads.bindLast ((hinner.decls outer levels decls houter rfl each).mono fun _ _ => rfl)
      fun decls' hdecls => ?_
    refine Reads.spanFrom fun span' => Reads.pure ?_
    simp only [declRespan, Concrete.paramsRespan_eq, Concrete.declsRespan_eq, Respan.bare_other,
      hname, hparams, hdecls]

/-- The first token that decides what a declaration is stands after something
balanced without one. -/
theorem firstInItem?_written {c : Cursor} {ts rest : List Token} {t : Token}
    (hts : Balanced Token.inExpr ts) (htoks : c.tokens = ts ++ t :: rest)
    (ht : t = .colon ∨ t = .pipe ∨ t = .kwWith ∨ t = .equals) :
    c.firstInItem? [.colon, .equals, .kwWith, .pipe] = some t := by
  obtain ⟨pre, post, hahead, rfl, hpost⟩ := List.map_eq_append_iff.1 htoks
  obtain ⟨tok, post, rfl, rfl, -⟩ := List.map_eq_cons_iff.1 hpost
  rw [Cursor.firstInItem?, hahead, hts.findInItem_zero fun _ => Token.not_mem_of_inExpr, Cursor.findInItem]
  rcases ht with ht | ht | ht | ht <;>
    simp [ht, Token.isSeparator, Token.isCloser, Token.isOpener]

theorem reads_ascription {s : Style} {g : Signature Concrete.Expr} (hnames : g.names ≠ [])
    (htype : ReadsExpr inner.expr s g.type) :
    Reads inner.signatureOrClause (signatureTokens s g) (declRespan .bare)
      (declRespan .bare (.ascription g)) Reads.endsItem := by
  refine Reads.look (x := some .colon) (fun c rest _ htoks _ => ?_) ?_
  · rw [signatureTokens, List.append_assoc] at htoks
    exact firstInItem?_written (Concrete.balanced_names (fun _ => rfl) _) htoks (.inl rfl)
  · refine Reads.start fun n => Reads.map ((reads_signature hnames htype).mono
      fun _ => Token.endsExpr_of_endsItem) fun g' hg => ?_
    rw [declRespan, declRespan, hg]

/-- The right-hand sides of a clause in writing. -/
def sidesTokens (s : Style) (withPatterns : List Concrete.Expr) (withExpr rhs : Option Concrete.Expr) :
    List Token :=
  withPatterns.flatMap (fun e => .pipe :: exprTokens s e) ++
    (optionTokens s .kwWith withExpr ++ optionTokens s .equals rhs)

/-- What follows the left-hand side of a clause decides that it is one. -/
theorem sides_head (s : Style) (withPatterns : List Concrete.Expr)
    {withExpr rhs : Option Concrete.Expr} (defined : withExpr.isSome ∨ rhs.isSome) :
    ∃ t us, sidesTokens s withPatterns withExpr rhs = t :: us ∧
      (t = .pipe ∨ t = .kwWith ∨ t = .equals) := by
  cases withPatterns with
  | cons e es => exact ⟨.pipe, _, rfl, .inl rfl⟩
  | nil =>
    cases withExpr with
    | some e => exact ⟨.kwWith, _, by rw [sidesTokens, optionTokens]; rfl, .inr (.inl rfl)⟩
    | none =>
      cases rhs with
      | some e => exact ⟨.equals, _, by rw [sidesTokens, optionTokens, optionTokens]; rfl,
          .inr (.inr rfl)⟩
      | none => simp at defined

/-- The block of a clause in writing, which is left out if it is empty. -/
def localsTokens (outer s : Style) (locals : List (Decl Concrete.Expr)) : List Token :=
  if locals.isEmpty then [] else .kwWhere :: outer.block (locals.map (declTokens outer s))

theorem declTokens_clause {outer s : Style} {span : Span} {lhs : Concrete.Expr} {b : Bool}
    {withPatterns : List Concrete.Expr} {withExpr rhs : Option Concrete.Expr}
    {locals : List (Decl Concrete.Expr)} :
    declTokens outer s (.clause span [lhs] b withPatterns withExpr rhs locals) =
      exprTokens s lhs ++ (sidesTokens s withPatterns withExpr rhs ++
        localsTokens outer s locals) := by
  rw [declTokens, Concrete.exprsTokens_eq, Concrete.exprsTokens_eq, Concrete.declsTokens_eq]
  simp [sidesTokens, localsTokens]

theorem reads_locals (hinner : inner.Complete limit sep levels) (houter : outer.isSeparator = true)
    {locals : List (Decl Concrete.Expr)} (room : locals ≠ [] → 0 < levels)
    (each : ∀ d ∈ locals, Concrete.Decl.WellFormed limit (levels - 1) d) :
    Reads (optional .kwWhere inner.decls) (localsTokens (.marked outer) (.marked sep) locals)
      (fun o => (o.getD []).map (declRespan .bare)) (locals.map (declRespan .bare))
      (· ≠ .kwWhere) := by
  cases locals with
  | nil =>
    intro c rest hc htoks hrest
    obtain ⟨o, ho, hnone⟩ : ∃ o, Accepts (optional .kwWhere inner.decls) c o (c.skip 0) ∧
        o.map id = none := Reads.optionalNone c rest hc htoks hrest
    exact ⟨o, ho, by rw [Option.map_eq_none_iff.1 hnone]; rfl⟩
  | cons d ds =>
    have hlevels : levels = levels - 1 + 1 := by
      have := room (by simp)
      omega
    have hblock := hinner.decls outer _ (d :: ds) houter hlevels each
    refine Reads.weaken (Reads.optionalSome (by simp) (hblock.mono fun _ _ => rfl)) fun o ho => ?_
    obtain ⟨ds', rfl, hds⟩ := Option.map_eq_some_iff.1 ho
    exact hds

/-- What may follow the sides of a clause: its block, or the end of the item. -/
theorem follows_locals (ok : Token → Bool) {outer s : Style} {locals : List (Decl Concrete.Expr)}
    {rest : List Token} (hwhere : ok .kwWhere = true) (hsep : ok .blockSep = true)
    (hsemi : ok .semicolon = true) (hend : ok .blockEnd = true)
    (hrest : Reads.endsItem (Token.first rest) = true) :
    ok (Token.first (localsTokens outer s locals ++ rest)) = true := by
  refine Token.first_append ok (fun t ht => ?_) ?_
  · rw [localsTokens] at ht
    split at ht
    · simp at ht
    · obtain rfl : Token.kwWhere = t := by simpa using ht
      exact hwhere
  · rcases Reads.endsItem_cases hrest with hf | hf | hf <;> rwa [hf]

theorem reads_withPatterns {s : Style} {es : List Concrete.Expr}
    (hes : ∀ e ∈ es, ReadsExpr inner.expr s e) :
    Reads (whileAt (·.isAt .pipe) (do let _ ← advance; inner.expr))
      (es.flatMap fun e => .pipe :: exprTokens s e) (List.map (exprRespan .bare))
      (es.map (exprRespan .bare)) fun t => !(t = .pipe) && t.endsExpr :=
  Reads.whileAt (· = .pipe) Token.endsExpr (fun _ => rfl)
    (fun e he => Reads.advance_bind (by simp) fun _ _ => hes e he)
    (fun e _ => ⟨.pipe, _, rfl, rfl, rfl⟩)

theorem reads_clause (hinner : inner.Complete limit sep levels) (houter : outer.isSeparator = true)
    {span : Span} {lhs : Concrete.Expr} {withPatterns : List Concrete.Expr}
    {withExpr rhs : Option Concrete.Expr} {locals : List (Decl Concrete.Expr)}
    (left : lhs.WellFormed limit levels)
    (patterns : ∀ e ∈ withPatterns, e.WellFormed limit levels)
    (scrutinee : ∀ e ∈ withExpr, e.WellFormed limit levels)
    (right : ∀ e ∈ rhs, e.WellFormed limit levels)
    (defined : withExpr.isSome ∨ rhs.isSome) (room : locals ≠ [] → 0 < levels)
    (each : ∀ d ∈ locals, Concrete.Decl.WellFormed limit (levels - 1) d) :
    Reads inner.clause (declTokens (.marked outer) (.marked sep)
        (.clause span [lhs] false withPatterns withExpr rhs locals))
      (declRespan .bare)
      (declRespan .bare (.clause span [lhs] false withPatterns withExpr rhs locals))
      Reads.endsItem := by
  obtain ⟨t, us, hsides, ht⟩ := sides_head (.marked sep) withPatterns defined
  rw [declTokens_clause]
  refine Reads.start fun n => Reads.bind (hinner.expr lhs left) (fun rest _ => ?_) fun lhs' hl => ?_
  · rw [hsides]
    rcases ht with rfl | rfl | rfl <;> rfl
  rw [sidesTokens, List.append_assoc, List.append_assoc]
  refine Reads.bind (reads_withPatterns fun e he => hinner.expr e (patterns e he))
    (fun rest hrest => ?_) fun withPatterns' hw => ?_
  · rw [List.append_assoc, List.append_assoc]
    refine Token.first_append (fun t => !(t = .pipe) && t.endsExpr)
      (fun t ht => by rw [option_head ht]; rfl) ?_
    refine Token.first_append (fun t => !(t = .pipe) && t.endsExpr)
      (fun t ht => by rw [option_head ht]; rfl) ?_
    exact follows_locals (fun t => !(t = .pipe) && t.endsExpr) rfl rfl rfl rfl hrest
  refine Reads.bind (reads_option (by simp) fun e he => hinner.expr e (scrutinee e he))
    (fun rest hrest => ?_) fun withExpr' hs => ?_
  · rw [List.append_assoc]
    refine Token.first_append (fun t => t != .kwWith && t.endsExpr)
      (fun t ht => by rw [option_head ht]; rfl) ?_
    exact follows_locals (fun t => t != .kwWith && t.endsExpr) rfl rfl rfl rfl hrest
  refine Reads.bind (reads_option (by simp) fun e he => hinner.expr e (right e he))
    (fun rest hrest => ?_) fun rhs' hr => ?_
  · exact follows_locals (fun t => t != .equals && t.endsExpr) rfl rfl rfl rfl hrest
  have hdefined : (withExpr'.isNone && rhs'.isNone) = false := by
    have hs := congrArg Option.isSome hs
    have hr := congrArg Option.isSome hr
    rw [Option.isSome_map, Option.isSome_map] at hs hr
    rw [← hs, ← hr] at defined
    cases withExpr' <;> cases rhs' <;> simp_all
  simp only [hdefined, Bool.false_eq_true, if_false]
  refine Reads.bindLast ((reads_locals hinner houter room each).mono fun t h => ?_)
    fun locals' hlocals' => ?_
  · rcases Reads.endsItem_cases h with rfl | rfl | rfl <;> rfl
  refine Reads.spanFrom fun span' => Reads.pure ?_
  simp only [declRespan, Concrete.exprsRespan_eq, Concrete.optionRespan_eq, Concrete.declsRespan_eq,
    Respan.bare_other, List.map_singleton, hl, hw, hs, hr, hlocals']

theorem reads_signatureOrClause (hsep : sep.isSeparator = true) {span : Span} {lhs : Concrete.Expr}
    {withPatterns : List Concrete.Expr} {withExpr rhs : Option Concrete.Expr}
    {locals : List (Decl Concrete.Expr)} (defined : withExpr.isSome ∨ rhs.isSome)
    (hclause : Reads inner.clause (declTokens (.marked outer) (.marked sep)
        (.clause span [lhs] false withPatterns withExpr rhs locals)) (declRespan .bare)
      (declRespan .bare (.clause span [lhs] false withPatterns withExpr rhs locals))
      Reads.endsItem) :
    Reads inner.signatureOrClause (declTokens (.marked outer) (.marked sep)
        (.clause span [lhs] false withPatterns withExpr rhs locals)) (declRespan .bare)
      (declRespan .bare (.clause span [lhs] false withPatterns withExpr rhs locals))
      Reads.endsItem := by
  obtain ⟨t, us, hsides, ht⟩ := sides_head (.marked sep) withPatterns defined
  refine Reads.look (x := some t) (fun c rest _ htoks _ => ?_) ?_
  · rw [declTokens_clause, hsides, List.append_assoc] at htoks
    exact firstInItem?_written (Concrete.balanced_expr hsep lhs) htoks (.inr ht)
  · rcases ht with rfl | rfl | rfl <;> exact hclause

/-- The grammar of declarations reads every declaration. -/
theorem reads_declaration {options : Options} (houter : outer.isSeparator = true)
    (hsep : sep.isSeparator = true) (hinner : inner.Complete options.maxPrecedence sep levels)
    {d : Decl Concrete.Expr} (hd : Concrete.Decl.WellFormed options.maxPrecedence levels d) :
    Reads (inner.declaration options) (declTokens (.marked outer) (.marked sep) d)
      (declRespan .bare) (declRespan .bare d) Reads.endsItem := by
  cases hd with
  | dataType names params type constructorNames constructorTypes =>
    refine Reads.lookToken (t := .kwData) (by rw [declTokens]; rfl) ?_
    exact reads_dataType hinner houter names params type constructorNames constructorTypes
  | emptyData names params type =>
    refine Reads.lookToken (t := .kwData) (by rw [declTokens]; rfl) ?_
    exact reads_emptyData hinner names params type
  | recordType names params type fieldNames fieldTypes each =>
    refine Reads.lookToken (t := .kwRecord) (by rw [declTokens]; rfl) ?_
    exact reads_recordType hinner houter names params type fieldNames fieldTypes each
  | moduleBlock segments names types each =>
    refine Reads.lookToken (t := .kwModule) (by rw [declTokens]; rfl) ?_
    exact reads_moduleBlock hinner houter segments names types each
  | @importModule _ span kind name segments =>
    cases kind with
    | importOnly =>
      refine Reads.lookToken (t := .kwImport) (by rw [declTokens]; rfl) ?_
      exact reads_importModule segments _ _
    | openOnly | openImport =>
      refine Reads.lookToken (t := .kwOpen) (by rw [declTokens]; rfl) ?_
      exact reads_importModule segments _ _
  | @ascription _ g names type =>
    obtain ⟨n, ns, hg⟩ := List.exists_cons_of_ne_nil names
    rw [Concrete.declTokens_ascription]
    refine Reads.lookToken (t := n.token) (by rw [signatureTokens, hg]; rfl) ?_
    exact reads_ascription names (hinner.expr _ type)
  | @clause _ span lhs withPatterns withExpr rhs locals head left patterns scrutinee right defined
      room each =>
    obtain ⟨t, us, hwritten, ht, hrecord⟩ := Concrete.expr_head (.marked sep) left
    have hnot : t ≠ .kwRecord := fun h => by rw [hrecord h] at head; cases head
    have hclause : Reads inner.signatureOrClause (declTokens (.marked outer) (.marked sep)
          (.clause span [lhs] false withPatterns withExpr rhs locals)) (declRespan .bare)
        (declRespan .bare (.clause span [lhs] false withPatterns withExpr rhs locals))
        Reads.endsItem :=
      reads_signatureOrClause hsep defined
        (reads_clause hinner houter left patterns scrutinee right defined room each)
    refine Reads.lookToken (t := t) (by rw [declTokens_clause, hwritten]; rfl) ?_
    cases t with
    | kwRecord => exact absurd rfl hnot
    | kwData | kwModule | kwImport | kwOpen | kwFixity | kwField | kwConstructor => cases ht
    | _ => exact hclause
  | fixity precedence literal operators_ne =>
    refine Reads.lookToken (by rw [declTokens]; rfl) ?_
    exact reads_fixityDeclaration precedence literal operators_ne _ _

/-- What may stand first in a declaration starts an item of a block, and no
member of a record type. -/
theorem decl_head {d : Decl Concrete.Expr} (hd : Concrete.Decl.WellFormed limit levels d)
    (outer s : Style) : ∃ t us, declTokens outer s d = t :: us ∧ Reads.startsItem t = true ∧
      t ≠ .kwConstructor ∧ t ≠ .kwField := by
  cases hd with
  | dataType | recordType | moduleBlock =>
    refine ⟨_, _, by rw [declTokens]; rfl, ?_⟩
    exact ⟨rfl, by simp, by simp⟩
  | emptyData | fixity =>
    refine ⟨_, _, by rw [declTokens], ?_⟩
    exact ⟨rfl, by simp, by simp⟩
  | @importModule _ _ kind =>
    cases kind <;>
    · refine ⟨_, _, by rw [declTokens]; rfl, ?_⟩
      exact ⟨rfl, by simp, by simp⟩
  | @ascription _ g names =>
    obtain ⟨n, ns, hg⟩ := List.exists_cons_of_ne_nil names
    exact ⟨.ident n.text, _, by rw [Concrete.declTokens_ascription, signatureTokens, hg]; rfl, rfl,
      by simp, by simp⟩
  | clause _ left =>
    obtain ⟨t, us, hwritten, ht, -⟩ := Concrete.expr_head s left
    refine ⟨t, _, by rw [declTokens_clause, hwritten]; rfl, ?_, ?_, ?_⟩
    · cases t <;> first | rfl | cases ht
    · rintro rfl
      cases ht
    · rintro rfl
      cases ht

theorem reads_member {options : Options} (houter : outer.isSeparator = true)
    (hsep : sep.isSeparator = true) (hinner : inner.Complete options.maxPrecedence sep levels)
    {builder : Option Name} {fields : List (Signature Concrete.Expr)}
    {decls : List (Decl Concrete.Expr)} (fieldNames : ∀ g ∈ fields, g.names ≠ [])
    (fieldTypes : ∀ g ∈ fields, g.type.WellFormed options.maxPrecedence levels)
    (each : ∀ d ∈ decls, Concrete.Decl.WellFormed options.maxPrecedence levels d) :
    ∀ m ∈ Parser.members builder fields decls,
      Reads (inner.member options) (m.tokens (.marked outer) (.marked sep)) (Member.respan .bare)
        (m.respan .bare) Reads.endsItem := by
  intro m hm
  simp only [Parser.members, List.mem_append, List.mem_map] at hm
  obtain (⟨n, -, rfl⟩ | ⟨g, hg, rfl⟩) | ⟨d, hd, rfl⟩ := hm
  · refine Reads.lookToken (t := .kwConstructor) rfl (Reads.advance_bind (by simp) fun _ _ => ?_)
    refine Reads.map ((Reads.name n).mono fun _ _ => rfl) fun n' hn => ?_
    rw [Member.respan, Member.respan, hn]
  · refine Reads.lookToken (t := .kwField) rfl (Reads.advance_bind (by simp) fun _ _ => ?_)
    refine Reads.map ((reads_signature (fieldNames g hg) (hinner.expr _ (fieldTypes g hg))).mono
      fun _ => Token.endsExpr_of_endsItem) fun g' hg' => ?_
    rw [Member.respan, Member.respan, hg']
  · have hdecl : Reads (Member.decl <$> inner.declaration options)
        (declTokens (.marked outer) (.marked sep) d) (Member.respan .bare)
        (Member.respan .bare (.decl d)) Reads.endsItem :=
      (reads_declaration houter hsep hinner (each d hd)).map fun d' hd' => by
        rw [Member.respan, Member.respan, hd']
    obtain ⟨t, us, hwritten, -, hbuilder, hfield⟩ :=
      decl_head (each d hd) (.marked outer) (.marked sep)
    refine Reads.lookToken (t := t) (by rw [Member.tokens, hwritten]; rfl) ?_
    cases t with
    | kwConstructor => exact absurd rfl hbuilder
    | kwField => exact absurd rfl hfield
    | _ => exact hdecl

theorem member_head {builder : Option Name} {fields : List (Signature Concrete.Expr)}
    {decls : List (Decl Concrete.Expr)}
    (each : ∀ d ∈ decls, Concrete.Decl.WellFormed limit levels d) (outer s : Style) :
    ∀ m ∈ Parser.members builder fields decls,
      ∃ t us, m.tokens outer s = t :: us ∧ Reads.startsItem t = true := by
  intro m hm
  simp only [Parser.members, List.mem_append, List.mem_map] at hm
  obtain (⟨n, -, rfl⟩ | ⟨g, hg, rfl⟩) | ⟨d, hd, rfl⟩ := hm
  · exact ⟨.kwConstructor, _, rfl, rfl⟩
  · exact ⟨.kwField, _, rfl, rfl⟩
  · obtain ⟨t, us, hwritten, ht, -⟩ := decl_head (each d hd) outer s
    exact ⟨t, us, hwritten, ht⟩

/-! ## All levels -/

/-- What may nest `levels` deep is read by the parsers for `levels` levels. -/
theorem complete (options : Options) (hsep : sep.isSeparator = true) :
    ∀ levels, (Parser.inner options levels).Complete options.maxPrecedence sep levels := by
  intro levels
  induction levels with
  | zero =>
    exact ⟨fun e he => (nomatch he), fun _ _ _ _ h => (nomatch h), fun _ _ _ _ h => (nomatch h),
      fun _ _ _ _ _ _ h => (nomatch h)⟩
  | succ levels ih =>
    refine ⟨fun e he => ?_, fun outer n ds houter hn each => ?_,
      fun outer n gs houter hn names types => ?_,
      fun outer n builder fields ds houter hn names types each => ?_⟩
    · refine reads_expression hsep ih.expr (fun n ds hn each => ?_) he
      rw [Concrete.declsTokens_eq]
      exact ih.decls sep n ds hsep hn each
    · obtain rfl : levels = n := by simpa using hn
      refine Reads.block houter (fun d hd => reads_declaration houter hsep ih (each d hd))
        fun d hd => ?_
      obtain ⟨t, us, hwritten, ht, -⟩ := decl_head (each d hd) (.marked outer) (.marked sep)
      exact ⟨t, us, hwritten, ht⟩
    · obtain rfl : levels = n := by simpa using hn
      refine Reads.block houter (fun g hg => ?_) fun g hg => ?_
      · exact reads_constructorSignature (names g hg) (ih.expr _ (types g hg))
      · obtain ⟨m, ms, hg'⟩ := List.exists_cons_of_ne_nil (names g hg)
        exact ⟨m.token, _, by rw [signatureTokens, hg']; rfl, rfl⟩
    · obtain rfl : levels = n := by simpa using hn
      exact Reads.block houter (reads_member houter hsep ih names types each)
        (member_head each (.marked outer) (.marked sep))

end Inner

/-! ## Files -/

/-- A stream that ends with an end of file is read up to it. -/
theorem ofLexemes_concat {toks : List Lexeme} {ts : List Token}
    (h : toks.map (·.token) = ts ++ [.eof]) (hjoined : toks.IsChain Lexeme.Joined) :
    (Cursor.ofLexemes toks).Spaced ∧ (Cursor.ofLexemes toks).tokens = ts := by
  obtain ⟨pre, post, rfl, rfl, hpost⟩ := List.map_eq_append_iff.1 h
  obtain ⟨eof, rfl, heof⟩ : ∃ eof, post = [eof] ∧ eof.token = .eof := by
    obtain ⟨eof, post, rfl, heof, hnil⟩ := List.map_eq_cons_iff.1 hpost
    exact ⟨eof, by rw [List.map_eq_nil_iff.1 hnil], heof⟩
  rw [Cursor.ofLexemes_concat pre heof]
  exact ⟨⟨heof, hjoined.left_of_append⟩, rfl⟩

/-- A file in writing, with any separators, is read in full. -/
theorem file_written {options : Options} {outer sep : Token} (houter : outer.isSeparator = true)
    (hsep : sep.isSeparator = true) {ds : List (Decl Concrete.Expr)}
    (hlevels : 0 < options.maxNesting)
    (hds : ∀ d ∈ ds, Concrete.Decl.WellFormed options.maxPrecedence (options.maxNesting - 1) d)
    {c : Cursor} (hc : c.Spaced)
    (htoks : c.tokens = Concrete.fileTokens (.marked outer) (.marked sep) ds) :
    ∃ ds', file options c = (ds', []) ∧ ds'.map (declRespan .bare) = ds.map (declRespan .bare) ∧
      ((inner options options.maxNesting).decls c).2.token = .eof := by
  have hdecls := (Inner.complete options hsep options.maxNesting).decls outer
    (options.maxNesting - 1) ds houter (by omega) hds
  rw [Concrete.fileTokens, Concrete.declsTokens_eq] at htoks
  obtain ⟨ds', hds', hrespan⟩ := hdecls c [] hc (by rw [htoks, List.append_nil]) rfl
  have hend : (c.skip ((Style.marked outer).block
      (ds.map (declTokens (.marked outer) (.marked sep)))).length).token = .eof := by
    rw [(hc.skip _).token_eq_first, Cursor.tokens_skip, htoks, List.drop_length]
    rfl
  refine ⟨ds', ?_, hrespan, by rw [hds']; exact hend⟩
  rw [file, hds']
  simp [Report.settle, Cursor.isAt, hend]

/-- Every well-formed list of declarations is read back, up to spans, from the
tokens it is written as, without problems and up to the end of file. -/
theorem file_reads_back {options : Options} {ds : List (Decl Concrete.Expr)}
    (hlevels : 0 < options.maxNesting)
    (hds : ∀ d ∈ ds, Concrete.Decl.WellFormed options.maxPrecedence (options.maxNesting - 1) d)
    {toks : List Lexeme}
    (htoks : toks.map (·.token) =
      Concrete.fileTokens (.marked .blockSep) (.marked .blockSep) ds ++ [.eof])
    (hjoined : toks.IsChain Lexeme.Joined) :
    ∃ ds', file options (.ofLexemes toks) = (ds', []) ∧
      ds'.map (declRespan .bare) = ds.map (declRespan .bare) ∧
      ((inner options options.maxNesting).decls (.ofLexemes toks)).2.token = .eof := by
  obtain ⟨hspaced, htokens⟩ := ofLexemes_concat htoks hjoined
  exact file_written rfl rfl hlevels hds hspaced htokens

/-- `f x = let y = M.z in (y)`, with the places that its tokens have there. -/
theorem file_reads_back_let :
    let name (text : String) : Concrete.Atom := .leaf (.name ⟨default, [⟨text, default⟩]⟩)
    let clause (lhs : List Concrete.Atom) (rhs : Concrete.Expr) : Decl Concrete.Expr :=
      .clause default [.run default lhs] false [] none (some rhs) []
    let ds := [clause [name "f", name "x"] (.letIn default
      [clause [name "y"] (.run default [.leaf (.name ⟨default, [⟨"M", default⟩, ⟨"z", default⟩]⟩)])]
      (.run default [.paren default (.run default [name "y"])]))]
    let toks : List Lexeme := ([(.blockStart, 0, 0), (.ident "f", 0, 1), (.ident "x", 2, 3),
      (.equals, 4, 5), (.kwLet, 6, 9), (.blockStart, 10, 10), (.ident "y", 10, 11),
      (.equals, 12, 13), (.ident "M", 14, 15), (.dot, 15, 16), (.ident "z", 16, 17),
      (.blockEnd, 18, 18), (.kwIn, 18, 20), (.lparen, 21, 22), (.ident "y", 22, 23),
      (.rparen, 23, 24), (.blockEnd, 24, 24), (.eof, 24, 24)] : List (Token × Nat × Nat)).map
        fun (t, start, stop) => ⟨t, ⟨start, stop⟩, 1, start + 1, false⟩
    ∃ ds', file {} (.ofLexemes toks) = (ds', []) ∧
      ds'.map (declRespan .bare) = ds.map (declRespan .bare) ∧
      ((inner {} 128).decls (.ofLexemes toks)).2.token = .eof := by
  intro name clause ds toks
  have hname : ∀ levels text, (name text).WellFormed 9 levels := by
    intro levels text
    refine .leaf ?_
    rintro q ⟨⟩
    simp
  have hrun : ∀ levels (a : Concrete.Atom), a.isTail = false → a.WellFormed 9 levels →
      Concrete.Expr.WellFormed 9 (levels + 1) (.run default [a]) := by
    intro levels a htail ha
    refine .run ⟨by simp, by simp, ?_⟩ (by simpa using ha)
    rintro e ⟨⟩
    simp [Concrete.Atom.isTail] at htail
  have hclause : ∀ levels lhs rhs, (Concrete.Expr.run default lhs).leadsWithRecord = false →
      Concrete.Expr.WellFormed 9 levels (.run default lhs) →
      Concrete.Expr.WellFormed 9 levels rhs → Concrete.Decl.WellFormed 9 levels (clause lhs rhs) := by
    intro levels lhs rhs hhead hlhs hrhs
    exact .clause hhead hlhs (by simp) (by simp) (by simpa using hrhs) (by simp) (by simp) (by simp)
  have hlhs : Concrete.Expr.WellFormed 9 127 (.run default [name "f", name "x"]) :=
    .run ⟨by simp, by simp [name, Concrete.Atom.isTail], by simp⟩ (by simp [hname])
  have hlocal : Concrete.Expr.WellFormed 9 125
      (.run default [.leaf (.name ⟨default, [⟨"M", default⟩, ⟨"z", default⟩]⟩)]) :=
    hrun 124 _ rfl (.leaf (by rintro q ⟨⟩; simp))
  have hbody : Concrete.Expr.WellFormed 9 126 (.run default [.paren default (.run default [name "y"])]) :=
    hrun 125 _ rfl (.paren (hrun 124 _ rfl (hname 124 "y")))
  have hds : ∀ d ∈ ds, Concrete.Decl.WellFormed 9 127 d := by
    refine List.forall_mem_singleton.2 (hclause 127 _ _ rfl hlhs (.letIn ?_ hbody))
    exact List.forall_mem_singleton.2 (hclause 125 _ _ rfl (hrun 124 _ rfl (hname 124 "y")) hlocal)
  have htoks : toks.map (·.token) =
      Concrete.fileTokens (.marked .blockSep) (.marked .blockSep) ds ++ [.eof] := by
    decide +kernel
  have hjoined : toks.IsChain Lexeme.Joined := by decide +kernel
  exact file_reads_back (by decide) hds htoks hjoined

end Parser

end Offside
