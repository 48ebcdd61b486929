-- SUMMARY: What each production of the grammar gives lies in the text read for it.
import Offside.Proofs.Parser.Members
import Offside.Proofs.Parser.Spans

/-! # The grammar and its places

What a production gives lies in the text that was read for it, its parts inside
it and in order. This is proved of the productions over `Inner` one by one, and
of all of them by induction on the levels of nesting (`lays_inner`). It holds of
what recovery leaves as well: `file_lies`. -/

namespace Offside

namespace Parser

variable {source : String} {c c₀ : Cursor} {expected : String}

/-! ## Members of record types -/

/-- A member of a record type with its parts inside. -/
inductive Member.Lies (source : String) : Member → Span → Prop
  | builder {n outer} (lies : n.Lies source outer) : Member.Lies source (.builder n) outer
  | field {g outer} (lies : g.Lies source (Concrete.Expr.Lies source) outer) :
      Member.Lies source (.field g) outer
  | decl {d outer} (lies : d.Lies source (Concrete.Expr.Lies source) outer) :
      Member.Lies source (.decl d) outer

/-- The span of a member. -/
def Member.span : Member → Span
  | .builder n => n.span
  | .field g => g.span
  | .decl d => d.span

theorem Member.located : Located source (Member.Lies source) Member.span := by
  intro m outer h
  cases h with
  | builder lies => exact lies
  | field lies => exact Signature.located _ _ lies
  | decl lies => exact Decl.located _ _ lies

/-- Members of one kind keep the order of all. -/
theorem ordered_filterMap {β : Type} (pick : Member → Option β) {span : β → Span}
    (hpick : ∀ {m b}, pick m = some b → span b = m.span) {ms : List Member}
    (h : Span.Ordered (ms.map Member.span)) : Span.Ordered ((ms.filterMap pick).map span) := by
  refine List.pairwise_map.2 (List.pairwise_filterMap.2 ((List.pairwise_map.1 h).imp ?_))
  intro m m' hle b hb b' hb'
  rwa [hpick hb, hpick hb']

/-! ## Productions -/

/-- What the parsers for what nests give lies in the text read for it. -/
structure Inner.Lays (source : String) (inner : Inner) : Prop where
  expr : ∀ {c}, c.Ordered source →
    Spans source inner.expr c (Within (Concrete.Expr.Lies source) c)
  decls : ∀ {c}, c.Ordered source → Spans source inner.decls c
    (Spread (Decl.Lies source (Concrete.Expr.Lies source)) Decl.span c)
  constructors : ∀ {c}, c.Ordered source → Spans source inner.constructors c
    (Spread (Signature.Lies source (Concrete.Expr.Lies source)) Signature.span c)
  members : ∀ {c}, c.Ordered source → Spans source inner.members c
    (Spread (Member.Lies source) Member.span c)

theorem spans_boundName (hc : c.Ordered source) :
    Spans source (boundName expected) c (Within (Name.Lies source) c) := by
  refine .look ?_
  split
  · rename_i hat
    exact .token hc (hasText_of_isAt hat rfl) fun _ lies => lies
  · exact .name hc

namespace Inner

variable {inner : Inner}

/-! ## Expressions -/

theorem spans_param (hinner : inner.Lays source) (hc : c.Ordered source)
    (ht : c.token.hasText = true) : Spans source inner.param c
      (Within (Param.Lies source (Concrete.Expr.Lies source)) c) := by
  refine .keyword hc ht fun c₁ hc₁ h₁ hread => ?_
  refine (Spans.sequence Name.located (fun c hc _ => spans_boundName hc) hc₁).bind
    fun names c₂ hc₂ h₂ hnames => ?_
  split
  · exact .failHere hc₂
  · refine (Spans.advance hc₂).bind fun _ c₃ hc₃ h₃ _ => ?_
    refine (hinner.expr hc₃).bind fun type c₄ hc₄ h₄ htype => ?_
    have hclose : ∀ {t : Token} {context : String}, Spans source (do
        expect t context
        return (⟨← spanFrom c.front, decide (c.current.token = .lbrace), names, type⟩ :
          Param Concrete.Expr)) c₄ (Within (Param.Lies source (Concrete.Expr.Lies source)) c) := by
      intro t context
      refine (Spans.expect hc₄).bind fun _ c₅ hc₅ h₅ _ => ?_
      refine .node hc hc₅ (by omega) fun outer lies => ?_
      exact .mk lies (hnames.each _ _ (by omega) (by omega)) (htype _ _ (by omega) (by omega))
    split
    · exact hclose
    · exact hclose

theorem spans_binding (hinner : inner.Lays source) (hc : c.Ordered source) :
    Spans source (inner.binding expected) c
      (Within (Binding.Lies source (Concrete.Expr.Lies source)) c) := by
  refine .look ?_
  split
  · rename_i hbracket
    refine .look ?_
    split
    · exact (spans_param hinner hc (hasText_of_atBracket hbracket)).mapWithin fun _ _ => .typed
    · exact .unexpected hc
  · exact (spans_boundName hc).mapWithin fun _ _ => .name

theorem spans_bindings (hinner : inner.Lays source) (hc : c.Ordered source) :
    Spans source (inner.bindings expected) c
      (Spread (Binding.Lies source (Concrete.Expr.Lies source)) Binding.span c) := by
  refine (Spans.sequence Binding.located (fun c hc _ => spans_binding hinner hc) hc).bind
    fun bindings c₁ hc₁ h₁ hbindings => ?_
  split
  · exact .unexpected hc₁
  · exact (Spans.advance hc₁).bind fun _ c₂ hc₂ h₂ _ =>
      .pure hc₂ (hbindings.widen (Nat.le_refl _) h₂.1)

theorem spans_bind (hinner : inner.Lays source) {binder : Binder} (hc : c.Ordered source)
    (ht : c.token.hasText = true) :
    Spans source (inner.bind binder expected) c (Within (Concrete.Expr.Lies source) c) := by
  refine .keyword hc ht fun c₁ hc₁ h₁ hread => ?_
  refine (spans_bindings hinner hc₁).bind fun bindings c₂ hc₂ h₂ hbindings => ?_
  refine (hinner.expr hc₂).bind fun body c₃ hc₃ h₃ hbody => ?_
  refine .node hc hc₃ (by omega) fun outer lies => ?_
  exact .bind lies (hbindings.each _ _ (by omega) (by omega)) (hbody _ _ (by omega) (by omega))

theorem spans_letIn (hinner : inner.Lays source) (hc : c.Ordered source)
    (ht : c.token.hasText = true) :
    Spans source inner.letIn c (Within (Concrete.Expr.Lies source) c) := by
  refine .keyword hc ht fun c₁ hc₁ h₁ hread => ?_
  refine (hinner.decls hc₁).bind fun decls c₂ hc₂ h₂ hdecls => ?_
  refine (Spans.expect hc₂).bind fun _ c₃ hc₃ h₃ _ => ?_
  refine (hinner.expr hc₃).bind fun body c₄ hc₄ h₄ hbody => ?_
  refine .node hc hc₄ (by omega) fun outer lies => ?_
  exact .letIn lies (hdecls.each _ _ (by omega) (by omega)) hdecls.ordered
    (hbody _ _ (by omega) (by omega))

theorem spans_assignment (hinner : inner.Lays source) (hc : c.Ordered source) :
    Spans source inner.assignment c
      (Within (Assignment.Lies source (Concrete.Expr.Lies source)) c) := by
  refine (Spans.nameHere hc).bind fun n c₁ hc₁ h₁ hn => ?_
  obtain ⟨hspan, hn⟩ := hn
  have hread := hn.le Name.located
  refine (Spans.expect hc₁).bind fun _ c₂ hc₂ h₂ _ => ?_
  refine (hinner.expr hc₂).bind fun value c₃ hc₃ h₃ hvalue => ?_
  rw [hspan]
  refine .node hc hc₃ (by omega) fun outer lies => ?_
  exact .mk lies (hn _ _ (by omega) (by omega)) (hvalue _ _ (by omega) (by omega))

theorem spans_assignments (hinner : inner.Lays source) (hc : c.Ordered source) :
    Spans source inner.assignments c
      (Spread (Assignment.Lies source (Concrete.Expr.Lies source)) Assignment.span c) := by
  refine .look ?_
  split
  · exact .pure hc .nil
  · have hround : ∀ c, c.Ordered source → (!c.isAt .rbrace) = true → Spans source (do
          expect .semicolon "between record fields"
          inner.assignment) c
          (Within (Assignment.Lies source (Concrete.Expr.Lies source)) c) := by
      intro c hc _
      refine (Spans.expect hc).bind fun _ c₁ hc₁ h₁ _ => ?_
      exact (spans_assignment hinner hc₁).mono fun f c₂ hf => hf.widen h₁.2.1 (Nat.le_refl _)
    refine (spans_assignment hinner hc).bind fun f c₁ hc₁ h₁ hf => ?_
    refine (Spans.sequence Assignment.located hround hc₁).bind fun fs c₂ hc₂ h₂ hfs => ?_
    exact .pure hc₂ (.append Assignment.located (.singleton hf) hfs h₁ h₂)

theorem spans_recordValue (hinner : inner.Lays source) (hc : c.Ordered source)
    (ht : c.token.hasText = true) :
    Spans source inner.recordValue c (Within (Concrete.Atom.Lies source) c) := by
  refine .keyword hc ht fun c₁ hc₁ h₁ hread => ?_
  have hfields : ∀ {builder : Option QualifiedName} {c₂ : Cursor}, c₂.Ordered source →
      c₁.Onward c₂ → Within (fun o outer => ∀ q ∈ o, q.Lies source outer) c₁ builder c₂ →
      Spans source (do
        expect .lbrace "to start record fields"
        let fields ← inner.assignments
        let _ ← advance
        return Concrete.Atom.record (← spanFrom c.front) builder fields) c₂
        (Within (Concrete.Atom.Lies source) c) := by
    intro builder c₂ hc₂ h₂ hbuilder
    refine (Spans.expect hc₂).bind fun _ c₃ hc₃ h₃ _ => ?_
    refine (spans_assignments hinner hc₃).bind fun fields c₄ hc₄ h₄ hfields => ?_
    refine (Spans.advance hc₄).bind fun _ c₅ hc₅ h₅ _ => ?_
    refine .node hc hc₅ (by omega) fun outer lies => ?_
    exact .record lies (hbuilder _ _ (by omega) (by omega))
      (hfields.each _ _ (by omega) (by omega)) hfields.ordered
  refine .look ?_
  split
  · refine ((Spans.qualifiedName hc₁).mapWithin fun q outer hq q' hq' => ?_).bind
      fun _ c₂ hc₂ h₂ hbuilder => hfields hc₂ h₂ hbuilder
    obtain rfl := Option.some.inj hq'
    exact hq
  · exact (Spans.pure hc₁ fun _ _ _ _ q hq => by simp at hq).bind
      fun _ c₂ hc₂ h₂ hbuilder => hfields hc₂ h₂ hbuilder

theorem spans_paren (hinner : inner.Lays source) (hc : c.Ordered source)
    (ht : c.token.hasText = true) :
    Spans source inner.paren c (Within (Concrete.Atom.Lies source) c) := by
  refine .keyword hc ht fun c₁ hc₁ h₁ hread => ?_
  refine (hinner.expr hc₁).bind fun e c₂ hc₂ h₂ he => ?_
  refine (Spans.expect hc₂).bind fun _ c₃ hc₃ h₃ _ => ?_
  refine .node hc hc₃ (by omega) fun outer lies => ?_
  exact .paren lies (he _ _ (by omega) (by omega))

theorem spans_leaf {make : Span → Leaf} (hc : c.Ordered source) (ht : c.token.hasText = true)
    (hspan : ∀ span, (make span).span = span) (hname : ∀ span q, make span ≠ .name q) :
    Spans source (leaf make) c (Within (Concrete.Atom.Lies source) c) := by
  refine .token hc ht fun outer lies => .leaf (.other (hname _) ?_)
  rwa [hspan]

theorem spans_paramAtom (hinner : inner.Lays source) (hc : c.Ordered source)
    (ht : c.token.hasText = true) :
    Spans source (.param <$> inner.param) c (Within (Concrete.Atom.Lies source) c) :=
  (spans_param hinner hc ht).mapWithin fun _ _ => .param

theorem spans_atom (hinner : inner.Lays source) (hc : c.Ordered source) :
    Spans source inner.atom c (Within (Concrete.Atom.Lies source) c) := by
  refine .look ?_
  cases ht : c.token with
  | ident text =>
    refine (Spans.qualifiedName hc).bind fun q c₁ hc₁ _ hq => .pure hc₁ ?_
    exact fun first last hfirst hlast => .leaf (.name (hq first last hfirst hlast))
  | underscore | unit | kwType | integer =>
    exact spans_leaf hc (by rw [ht]; rfl) (fun _ => rfl) nofun
  | lparen =>
    refine .look ?_
    split
    · exact spans_paramAtom hinner hc (by rw [ht]; rfl)
    · exact spans_paren hinner hc (by rw [ht]; rfl)
  | lbrace => exact spans_paramAtom hinner hc (by rw [ht]; rfl)
  | kwRecord => exact spans_recordValue hinner hc (by rw [ht]; rfl)
  | _ => exact .unexpected hc

/-- A run holds an atom. -/
theorem spans_run (hinner : inner.Lays source) (hc : c.Ordered source) :
    Spans source inner.run c fun atoms c' =>
      Spread (Concrete.Atom.Lies source) Concrete.Atom.span c atoms c' ∧ atoms ≠ [] := by
  refine (Spans.sequence Concrete.Atom.located (fun c hc _ => spans_atom hinner hc) hc).bind
    fun atoms c₁ hc₁ h₁ hatoms => ?_
  have hend : ∀ {last : List Concrete.Atom} {c₂ : Cursor}, c₂.Ordered source → c₁.Onward c₂ →
      Spread (Concrete.Atom.Lies source) Concrete.Atom.span c₁ last c₂ →
      Spans source (if (atoms ++ last).isEmpty then unexpected "an expression"
        else pure (atoms ++ last)) c₂ fun atoms c' =>
          Spread (Concrete.Atom.Lies source) Concrete.Atom.span c atoms c' ∧ atoms ≠ [] := by
    intro last c₂ hc₂ h₂ hlast
    split
    · exact .unexpected hc₂
    · rename_i hne
      exact .pure hc₂ ⟨.append Concrete.Atom.located hatoms hlast h₁ h₂, by simpa using hne⟩
  refine .look ?_
  split
  · refine Spans.bind (Spans.map ((hinner.expr hc₁).mono fun e c₂ he => .singleton ?_))
      fun last c₂ hc₂ h₂ hlast => hend hc₂ h₂ hlast
    exact fun first last hfirst hlast => .tail (he first last hfirst hlast)
  · exact (Spans.pure hc₁ .nil).bind fun last c₂ hc₂ h₂ hlast => hend hc₂ h₂ hlast

theorem spans_runOrArrow (hinner : inner.Lays source) (hc : c.Ordered source) :
    Spans source inner.runOrArrow c (Within (Concrete.Expr.Lies source) c) := by
  refine .look ?_
  refine (spans_run hinner hc).bind fun atoms c₁ hc₁ h₁ hatoms => ?_
  obtain ⟨hatoms, hne⟩ := hatoms
  have hread := hatoms.le Concrete.Atom.located hne
  refine (Spans.eat hc₁).bind fun arrow c₂ hc₂ h₂ _ => ?_
  cases arrow with
  | true =>
    refine (hinner.expr hc₂).bind fun codomain c₃ hc₃ h₃ hcodomain => ?_
    refine .node hc hc₃ (by omega) fun outer lies => ?_
    exact .arrow lies (hatoms.each _ _ (by omega) (by omega)) hatoms.ordered
      (hcodomain _ _ (by omega) (by omega))
  | false =>
    refine .node hc hc₂ (by omega) fun outer lies => ?_
    exact .run lies (hatoms.each _ _ (by omega) (by omega)) hatoms.ordered

theorem spans_expression (hinner : inner.Lays source) (hc : c.Ordered source) :
    Spans source inner.expression c (Within (Concrete.Expr.Lies source) c) := by
  refine .look ?_
  cases ht : c.token with
  | backslash | kwForall => exact spans_bind hinner hc (by rw [ht]; rfl)
  | kwLet => exact spans_letIn hinner hc (by rw [ht]; rfl)
  | arrow => exact .failHere hc
  | _ => exact spans_runOrArrow hinner hc

/-! ## Declarations -/

/-- An expression after a token, as part of what begins at `c₀`. -/
theorem spans_after (hinner : inner.Lays source) (c₀ : Cursor) (h₀ : c₀.front ≤ c.front) :
    ∀ c₁, c₁.Ordered source → c.Onward c₁ →
      Spans source inner.expr c₁ (Within (Concrete.Expr.Lies source) c₀) :=
  fun _ hc₁ h₁ => (hinner.expr hc₁).mono fun _ _ he => he.widen (by omega) (Nat.le_refl _)

theorem spans_params (hinner : inner.Lays source) (hc : c.Ordered source) :
    Spans source inner.params c
      (Spread (Param.Lies source (Concrete.Expr.Lies source)) Param.span c) :=
  .sequence Param.located (fun _ hc hat => spans_param hinner hc (hasText_of_atBracket hat)) hc

theorem spans_header (hinner : inner.Lays source) (hc : c.Ordered source) :
    Spans source (inner.header expected) c
      (Within (Header.Lies source (Concrete.Expr.Lies source)) c) := by
  refine (Spans.name hc).bind fun n c₁ hc₁ h₁ hn => ?_
  refine (spans_params hinner hc₁).bind fun params c₂ hc₂ h₂ hparams => ?_
  refine (Spans.optional hc₂ (spans_after hinner _ (Nat.le_refl _))).bind
    fun type c₃ hc₃ h₃ htype => ?_
  refine .pure hc₃ fun first last hfirst hlast => .mk ?_ ?_ fun e he => ?_
  · exact hn _ _ hfirst (by omega)
  · exact hparams.each _ _ (by omega) (by omega)
  · exact htype e he _ _ (by omega) hlast

theorem spans_signature (hinner : inner.Lays source) {context : String} (hc₀ : c₀.Ordered source)
    (hc : c.Ordered source) (h₀ : c₀.front ≤ c.front) :
    Spans source (inner.signature c₀.front expected context) c
      (Within (Signature.Lies source (Concrete.Expr.Lies source)) c₀) := by
  refine (Spans.names hc).bind fun names c₁ hc₁ h₁ hnames => ?_
  refine (Spans.expect hc₁).bind fun _ c₂ hc₂ h₂ _ => ?_
  refine (hinner.expr hc₂).bind fun type c₃ hc₃ h₃ htype => ?_
  have hread := htype.le Concrete.Expr.located
  refine .node hc₀ hc₃ (by omega) fun outer lies => ?_
  exact .mk lies (hnames.each _ _ (by omega) (by omega)) (htype _ _ (by omega) (by omega))

theorem spans_dataType (hinner : inner.Lays source) (hc : c.Ordered source)
    (ht : c.token.hasText = true) : Spans source inner.dataType c
      (Within (Decl.Lies source (Concrete.Expr.Lies source)) c) := by
  refine .keyword hc ht fun c₁ hc₁ h₁ hread => ?_
  refine (spans_header hinner hc₁).bind fun header c₂ hc₂ h₂ hheader => ?_
  refine (Spans.eat hc₂).bind fun found c₃ hc₃ h₃ _ => ?_
  cases found with
  | true =>
    refine (hinner.constructors hc₃).bind fun constructors c₄ hc₄ h₄ hconstructors => ?_
    refine .node hc hc₄ (by omega) fun outer lies => ?_
    exact .dataType lies (hheader _ _ (by omega) (by omega))
      (hconstructors.each _ _ (by omega) (by omega)) hconstructors.ordered
  | false =>
    refine .node hc hc₃ (by omega) fun outer lies => ?_
    exact .emptyData lies (hheader _ _ (by omega) (by omega))

theorem spans_constructorSignature (hinner : inner.Lays source) (hc : c.Ordered source) :
    Spans source inner.constructorSignature c
      (Within (Signature.Lies source (Concrete.Expr.Lies source)) c) := by
  refine .look ?_
  refine (Spans.eat hc).bind fun _ c₁ hc₁ h₁ _ => ?_
  exact spans_signature hinner hc hc₁ h₁.2.1

theorem spans_recordType (hinner : inner.Lays source) (hc : c.Ordered source)
    (ht : c.token.hasText = true) : Spans source inner.recordType c
      (Within (Decl.Lies source (Concrete.Expr.Lies source)) c) := by
  refine .keyword hc ht fun c₁ hc₁ h₁ hread => ?_
  refine (spans_header hinner hc₁).bind fun header c₂ hc₂ h₂ hheader => ?_
  refine (Spans.expect hc₂).bind fun _ c₃ hc₃ h₃ _ => ?_
  refine (hinner.members hc₃).bind fun members c₄ hc₄ h₄ hmembers => ?_
  have heach := hmembers.each c.front c₄.lastEnd (by omega) (by omega)
  have hbuilders : ∀ n ∈ members.filterMap Member.builder?,
      n.Lies source ⟨c.front, c₄.lastEnd⟩ := by
    intro n hn
    obtain ⟨m, hm, hbuilder⟩ := List.mem_filterMap.1 hn
    cases heach m hm with
    | builder lies => exact Option.some.inj hbuilder ▸ lies
    | _ => simp [Member.builder?] at hbuilder
  refine .record ?_ (.node hc hc₄ (by omega) fun outer lies => ?_)
  · intro d hd
    obtain ⟨n, hn, rfl⟩ := List.mem_map.1 hd
    exact Span.Lies.sited (hbuilders n (List.mem_of_mem_tail hn)) _
  refine .recordType lies (hheader _ _ (by omega) (by omega)) (fun n hn => ?_) (fun g hg => ?_)
    (ordered_filterMap Member.field? ?_ hmembers.ordered) (fun d hd => ?_)
    (ordered_filterMap Member.decl? ?_ hmembers.ordered)
  · exact hbuilders n (List.mem_of_mem_head? hn)
  · obtain ⟨m, hm, hfield⟩ := List.mem_filterMap.1 hg
    cases heach m hm with
    | field lies => exact Option.some.inj hfield ▸ lies
    | _ => simp at hfield
  · exact fun h => congrArg Member.span (Member.field?_eq_some.1 h).symm
  · obtain ⟨m, hm, hdecl⟩ := List.mem_filterMap.1 hd
    cases heach m hm with
    | decl lies => exact Option.some.inj hdecl ▸ lies
    | _ => simp at hdecl
  · exact fun h => congrArg Member.span (Member.decl?_eq_some.1 h).symm

theorem spans_moduleBlock (hinner : inner.Lays source) (hc : c.Ordered source)
    (ht : c.token.hasText = true) : Spans source inner.moduleBlock c
      (Within (Decl.Lies source (Concrete.Expr.Lies source)) c) := by
  refine .keyword hc ht fun c₁ hc₁ h₁ hread => ?_
  refine (Spans.qualifiedName hc₁).bind fun q c₂ hc₂ h₂ hq => ?_
  refine (spans_params hinner hc₂).bind fun params c₃ hc₃ h₃ hparams => ?_
  refine (Spans.expect hc₃).bind fun _ c₄ hc₄ h₄ _ => ?_
  refine (hinner.decls hc₄).bind fun decls c₅ hc₅ h₅ hdecls => ?_
  refine .node hc hc₅ (by omega) fun outer lies => ?_
  exact .moduleBlock lies (hq _ _ (by omega) (by omega)) (hparams.each _ _ (by omega) (by omega))
    (hdecls.each _ _ (by omega) (by omega)) hdecls.ordered

theorem spans_ascription (hinner : inner.Lays source) (hc : c.Ordered source) :
    Spans source inner.ascription c (Within (Decl.Lies source (Concrete.Expr.Lies source)) c) := by
  refine .look ?_
  exact (spans_signature hinner hc hc (Nat.le_refl _)).mapWithin fun _ _ => .ascription

theorem spans_clause (hinner : inner.Lays source) (hc : c.Ordered source) :
    Spans source inner.clause c (Within (Decl.Lies source (Concrete.Expr.Lies source)) c) := by
  have hround : ∀ c, c.Ordered source → c.isAt .pipe = true → Spans source (do
      let _ ← advance
      inner.expr) c (Within (Concrete.Expr.Lies source) c) := by
    intro c hc _
    exact (Spans.advance hc).bind fun _ c₁ hc₁ h₁ _ =>
      spans_after hinner _ (Nat.le_refl _) c₁ hc₁ h₁
  refine .look ?_
  refine (hinner.expr hc).bind fun lhs c₁ hc₁ h₁ hlhs => ?_
  have hread := hlhs.le Concrete.Expr.located
  refine (Spans.sequence Concrete.Expr.located hround hc₁).bind fun ws c₂ hc₂ h₂ hws => ?_
  refine (Spans.optional hc₂ (spans_after hinner c (by omega))).bind
    fun w c₃ hc₃ h₃ hw => ?_
  refine (Spans.optional hc₃ (spans_after hinner c (by omega))).bind
    fun rhs c₄ hc₄ h₄ hrhs => ?_
  split
  · exact .unexpected hc₄
  · refine (Spans.optional hc₄ fun c₅ hc₅ h₅ => (hinner.decls hc₅).mono fun ds c₆ hds =>
      Spread.widen (c := c) hds (by omega) (Nat.le_refl _)).bind fun locals c₅ hc₅ h₅ hlocals => ?_
    have hblock : Spread (Decl.Lies source (Concrete.Expr.Lies source)) Decl.span c
        (locals.getD []) c₅ := by
      cases locals with
      | none => exact .nil
      | some ds => exact hlocals ds rfl
    refine .node hc hc₅ (by omega) fun outer lies => ?_
    exact .clause lies (List.forall_mem_singleton.2 (hlhs _ _ (Nat.le_refl _) (by omega)))
      (hws.each _ _ (by omega) (by omega)) (fun e he => hw e he _ _ (Nat.le_refl _) (by omega))
      (fun e he => hrhs e he _ _ (Nat.le_refl _) (by omega))
      (hblock.each _ _ (Nat.le_refl _) (Nat.le_refl _)) hblock.ordered

end Inner

theorem spans_importModule (hc : c.Ordered source) (ht : c.token.hasText = true) :
    Spans source importModule c (Within (Decl.Lies source (Concrete.Expr.Lies source)) c) := by
  refine .keyword hc ht fun c₁ hc₁ h₁ hread => ?_
  have hname : ∀ {kind : ImportKind} {c₂ : Cursor}, c₂.Ordered source → c₁.Onward c₂ →
      Spans source (do
        let kind ← pure kind
        let name ← qualifiedName "a module name"
        return Decl.importModule (← spanFrom c.front) kind name) c₂
        (Within (Decl.Lies source (Concrete.Expr.Lies source)) c) := by
    intro kind c₂ hc₂ h₂
    refine (Spans.pure (Q := fun _ c' => c' = c₂) hc₂ rfl).bind ?_
    rintro kind _ hc₂ - rfl
    refine (Spans.qualifiedName hc₂).bind fun q c₃ hc₃ h₃ hq => ?_
    refine .node hc hc₃ (by omega) fun outer lies => ?_
    exact .importModule lies (hq _ _ (by omega) (by omega))
  dsimp only
  split
  · refine (Spans.eat hc₁).bind fun both c₂ hc₂ h₂ _ => ?_
    cases both with
    | true => exact hname hc₂ h₂
    | false => exact hname hc₂ h₂
  · exact hname hc₁ hc₁.onward_refl

theorem spans_precedence {limit : Nat} (hc : c.Ordered source) :
    Spans source (precedence limit) c fun _ _ => True := by
  refine .look ?_
  split
  · refine (Spans.advance hc).bind fun tok c₁ hc₁ h₁ htok => ?_
    split
    · exact .pure hc₁ trivial
    · exact .fail hc₁ (htok ▸ hc.stands.sited _)
  · exact .unexpected hc

theorem spans_fixityDeclaration {options : Options} {assoc : Associativity} (hc : c.Ordered source)
    (ht : c.token.hasText = true) : Spans source (fixityDeclaration options assoc) c
      (Within (Decl.Lies source (Concrete.Expr.Lies source)) c) := by
  refine .keyword hc ht fun c₁ hc₁ h₁ hread => ?_
  refine (spans_precedence hc₁).bind fun level c₂ hc₂ h₂ _ => ?_
  refine (Spans.names hc₂).bind fun operators c₃ hc₃ h₃ hoperators => ?_
  refine .node hc hc₃ (by omega) fun outer lies => ?_
  exact .fixity lies (hoperators.each _ _ (by omega) (by omega))

namespace Inner

variable {inner : Inner} {options : Options}

theorem spans_signatureOrClause (hinner : inner.Lays source) (hc : c.Ordered source) :
    Spans source inner.signatureOrClause c
      (Within (Decl.Lies source (Concrete.Expr.Lies source)) c) := by
  refine .look ?_
  split
  · exact spans_ascription hinner hc
  · exact spans_clause hinner hc
  · exact .look (.failHere hc)

theorem spans_declaration (hinner : inner.Lays source) (hc : c.Ordered source) :
    Spans source (inner.declaration options) c
      (Within (Decl.Lies source (Concrete.Expr.Lies source)) c) := by
  refine .look ?_
  cases ht : c.token with
  | kwData => exact spans_dataType hinner hc (by rw [ht]; rfl)
  | kwRecord => exact spans_recordType hinner hc (by rw [ht]; rfl)
  | kwModule => exact spans_moduleBlock hinner hc (by rw [ht]; rfl)
  | kwImport | kwOpen => exact spans_importModule hc (by rw [ht]; rfl)
  | kwFixity assoc => exact spans_fixityDeclaration hc (by rw [ht]; rfl)
  | kwField | kwConstructor => exact .failHere hc
  | _ => exact spans_signatureOrClause hinner hc

theorem spans_member (hinner : inner.Lays source) (hc : c.Ordered source) :
    Spans source (inner.member options) c (Within (Member.Lies source) c) := by
  refine .look ?_
  cases ht : c.token with
  | kwConstructor =>
    refine (Spans.advance hc).bind fun _ c₁ hc₁ h₁ _ => ?_
    refine ((Spans.name hc₁).mono fun n c₂ hn => ?_).mapWithin fun _ _ => .builder
    exact hn.widen h₁.2.1 (Nat.le_refl _)
  | kwField =>
    refine .keyword hc (by rw [ht]; rfl) fun c₁ hc₁ h₁ _ => ?_
    exact (spans_signature hinner hc hc₁ h₁.2.1).mapWithin fun _ _ => .field
  | _ => exact (spans_declaration hinner hc).mapWithin fun _ _ => .decl

end Inner

/-! ## Nesting -/

/-- What the parsers give lies in the text however deep they may nest. -/
theorem lays_inner (source : String) (options : Options) (levels : Nat) :
    (inner options levels).Lays source := by
  induction levels with
  | zero => exact ⟨.failHere, .failHere, .failHere, .failHere⟩
  | succ levels ih =>
    exact ⟨Inner.spans_expression ih, .block Decl.located fun _ => Inner.spans_declaration ih,
      .block Signature.located fun _ => Inner.spans_constructorSignature ih,
      .block Member.located fun _ => Inner.spans_member ih⟩

/-- The declarations of a file lie in its text one after another, whatever
problems it has. -/
theorem file_lies (options : Options) (hc : c.Ordered source) :
    (∀ d ∈ (file options c).1,
      d.Lies source (Concrete.Expr.Lies source) ⟨0, source.utf8ByteSize⟩) ∧
      Span.Ordered ((file options c).1.map Decl.span) := by
  obtain ⟨hordered, -, -, hvalue⟩ := (lays_inner source options options.maxNesting).decls hc
  cases hr : ((inner options options.maxNesting).decls c).1.result with
  | error d =>
    have hnone : (file options c).1 = [] := by simp [file, Report.settle, hr]
    rw [hnone]
    exact ⟨by simp, .nil⟩
  | ok ds =>
    have hfile : (file options c).1 = ds := by simp [file, Report.settle, hr]
    obtain ⟨heach, hsequence⟩ := hvalue ds hr
    rw [hfile]
    exact ⟨heach _ _ (Nat.zero_le _) hordered.read.le, hsequence⟩

/-- The problems of the parser are at stretches of the text. -/
theorem file_sited (options : Options) (hc : c.Ordered source) :
    ∀ d ∈ (file options c).2, d.Sited source := by
  have hdecls := (lays_inner source options options.maxNesting).decls hc
  refine List.forall_mem_append.2 ⟨hdecls.problems.settle, ?_⟩
  split
  · simp
  · exact List.forall_mem_singleton.2 (hdecls.ordered.stands.sited _)

end Parser

end Offside
