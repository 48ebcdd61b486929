-- SUMMARY: The grammar of expressions reads back every written expression.
import Mathlib.Data.List.Basic
import Offside.Proofs.Concrete.Balanced
import Offside.Proofs.Parser.Reads

/-! # Reading written expressions

Every production reads what it stands for, if the parsers for what nests one
level deeper do. The look-ahead of the productions passes over written
expressions, because these are balanced. -/

namespace Offside

/-! ## Following tokens -/

namespace Token

/-- May stand after a run: does not go on with it. -/
def endsRun (t : Token) : Bool := !t.startsAtom && !t.startsTail && t != .dot

/-- May stand after an expression: does not go on with it. -/
def endsExpr (t : Token) : Bool := t.endsRun && t != .arrow

theorem endsRun_of_endsExpr {t : Token} (h : t.endsExpr = true) : t.endsRun = true :=
  (Bool.and_eq_true_iff.1 h).1

theorem endsExpr_of_endsItem {t : Token} (h : Parser.Reads.endsItem t = true) :
    t.endsExpr = true := by
  rcases Parser.Reads.endsItem_cases h with rfl | rfl | rfl <;> rfl

end Token

namespace Concrete

variable {limit levels : Nat} (s : Style)

theorem qualified_head {q : QualifiedName} (h : q.segments ≠ []) :
    ∃ text us, q.tokens = .ident text :: us := by
  obtain ⟨span, segs⟩ := q
  obtain ⟨n, ns, rfl⟩ := List.exists_cons_of_ne_nil h
  cases ns with
  | nil => exact ⟨n.text, [], rfl⟩
  | cons m ms => exact ⟨n.text, _, rfl⟩

/-- An atom other than a form begins with one of the tokens for that, and with
the keyword of a record only if it is one. -/
theorem atom_head {a : Atom} (h : a.WellFormed limit levels) (htail : a.isTail = false) :
    ∃ t us, atomTokens s a = t :: us ∧ t.startsAtom = true ∧
      (t = .kwRecord → ∃ span builder fields, a = .record span builder fields) := by
  cases h with
  | @leaf _ l segments =>
    rw [atomTokens]
    cases l with
    | name q =>
      obtain ⟨text, us, hq⟩ := qualified_head (segments q rfl)
      exact ⟨.ident text, us, hq, rfl, by simp⟩
    | hole | unit | type | integer => exact ⟨_, _, rfl, rfl, by simp⟩
  | paren => exact ⟨.lparen, _, by rw [atomTokens]; rfl, rfl, by simp⟩
  | @param _ p =>
    rw [atomTokens, paramTokens_eq]
    cases p.isImplicit with
    | true => exact ⟨.lbrace, _, rfl, rfl, by simp⟩
    | false => exact ⟨.lparen, _, rfl, rfl, by simp⟩
  | record => exact ⟨.kwRecord, _, by rw [atomTokens]; rfl, rfl, fun _ => ⟨_, _, _, rfl⟩⟩
  | tail => simp [Atom.isTail] at htail

/-- The first atom of a run is no form. -/
theorem RunShape.head_isTail {a : Atom} {as : List Atom} (h : RunShape (a :: as)) :
    a.isTail = false := by
  cases as with
  | nil =>
    cases a with
    | tail e => exact absurd rfl (h.ne_tail e)
    | leaf | paren | param | record => rfl
  | cons b bs => exact h.dropLast_isTail a (by simp)

theorem atoms_head {atoms : List Atom} (hne : atoms ≠ [])
    (hhead : ∀ a ∈ atoms.head?, a.isTail = false) (h : ∀ a ∈ atoms, a.WellFormed limit levels) :
    ∃ t us, atoms.flatMap (atomTokens s) = t :: us ∧ t.startsAtom = true ∧
      (t = .kwRecord → ∃ span builder fields as, atoms = .record span builder fields :: as) := by
  obtain ⟨a, as, rfl⟩ := List.exists_cons_of_ne_nil hne
  obtain ⟨t, us, ha, ht, hrecord⟩ := atom_head s (h a List.mem_cons_self) (hhead a rfl)
  refine ⟨t, us ++ as.flatMap (atomTokens s), by rw [List.flatMap_cons, ha]; rfl, ht, fun heq => ?_⟩
  obtain ⟨span, builder, fields, rfl⟩ := hrecord heq
  exact ⟨span, builder, fields, as, rfl⟩

/-- An expression begins with an atom or a form. -/
theorem expr_head {e : Expr} (h : e.WellFormed limit levels) :
    ∃ t us, exprTokens s e = t :: us ∧ (t.startsAtom || t.startsTail) = true ∧
      (t = .kwRecord → e.leadsWithRecord = true) := by
  cases h with
  | @run _ _ atoms shape each =>
    obtain ⟨t, us, hatoms, ht, hrecord⟩ := atoms_head s shape.ne_nil (by
      intro a ha
      obtain ⟨as, rfl⟩ := List.head?_eq_some_iff.1 ha
      exact shape.head_isTail) each
    refine ⟨t, us, by rw [exprTokens, atomsTokens_eq, hatoms], by rw [ht]; rfl, fun heq => ?_⟩
    obtain ⟨_, _, _, _, rfl⟩ := hrecord heq
    rfl
  | @arrow _ _ domain _ ne_nil isTail each target =>
    obtain ⟨t, us, hatoms, ht, hrecord⟩ :=
      atoms_head s ne_nil (fun a ha => isTail a (List.mem_of_mem_head? ha)) each
    refine ⟨t, _, by rw [exprTokens, atomsTokens_eq, hatoms]; rfl, by rw [ht]; rfl, fun heq => ?_⟩
    obtain ⟨_, _, _, _, rfl⟩ := hrecord heq
    rfl
  | @bind _ _ binder =>
    refine ⟨binder.token, _, by rw [exprTokens]; rfl, ?_, ?_⟩
    · cases binder <;> rfl
    · cases binder <;> simp [Binder.token]
  | letIn => exact ⟨.kwLet, _, by rw [exprTokens]; rfl, rfl, by simp⟩

end Concrete

namespace Parser

open Concrete (exprTokens atomTokens paramTokens bindingTokens declsTokens signaturesTokens
  exprRespan atomRespan paramRespan bindingRespan declRespan signatureRespan)

/-- `p` reads the expression `e` before what may follow an expression. -/
abbrev ReadsExpr (p : Parser Concrete.Expr) (s : Style) (e : Concrete.Expr) : Prop :=
  Reads p (exprTokens s e) (exprRespan .bare) (exprRespan .bare e) Token.endsExpr

/-! ## Brackets -/

/-- A typed parameter has a colon directly inside its bracket. -/
theorem atTypedParam_param {c : Cursor} {s : Style} {rest : List Token} {p : Param Concrete.Expr}
    (htoks : c.tokens = paramTokens s p ++ rest) : c.atTypedParam = true := by
  simp only [Concrete.paramTokens_eq, List.cons_append, List.append_assoc] at htoks
  obtain ⟨o, toks, hahead, ho, htoks⟩ := List.map_eq_cons_iff.1 htoks
  obtain ⟨pre, post, rfl, hpre, hpost⟩ := List.map_eq_append_iff.1 htoks
  obtain ⟨colon, post, rfl, hcolon, -⟩ := List.map_eq_cons_iff.1 hpost
  have hopener : o.token.isOpener = true := by rw [ho]; cases p.isImplicit <;> rfl
  have heof : o.token ≠ .eof := by rw [ho]; cases p.isImplicit <;> simp
  rw [Cursor.atTypedParam, hahead, Cursor.colonInside]
  simp only [heof, hopener, if_false, if_true, Nat.zero_add]
  have hbalanced : Balanced Token.inExpr (pre.map (·.token)) := hpre ▸ Concrete.balanced_bounds p.names
  rw [hbalanced.colonInside_one fun _ => Token.ne_colon_of_inExpr, Cursor.colonInside]
  simp [hcolon, Token.isOpener, Token.isCloser]

/-- A parenthesis around an expression has none. -/
theorem atTypedParam_paren {c : Cursor} {sep : Token} {rest : List Token} {e : Concrete.Expr}
    (hsep : sep.isSeparator = true)
    (htoks : c.tokens = .lparen :: exprTokens (.marked sep) e ++ .rparen :: rest) :
    c.atTypedParam = false := by
  obtain ⟨o, toks, hahead, ho, htoks⟩ := List.map_eq_cons_iff.1 htoks
  obtain ⟨pre, post, rfl, hpre, hpost⟩ := List.map_eq_append_iff.1 htoks
  obtain ⟨closing, post, rfl, hclosing, -⟩ := List.map_eq_cons_iff.1 hpost
  rw [Cursor.atTypedParam, hahead, Cursor.colonInside]
  simp only [ho, Token.isOpener, if_true, Nat.zero_add, reduceCtorEq, if_false]
  have hbalanced : Balanced Token.inExpr (pre.map (·.token)) := hpre ▸ Concrete.balanced_expr hsep e
  rw [hbalanced.colonInside_one fun _ => Token.ne_colon_of_inExpr, Cursor.colonInside]
  simp [hclosing, Token.isOpener, Token.isCloser]

namespace Inner

variable {inner : Inner} {sep : Token} {limit levels : Nat}

theorem reads_boundName {expected : String} (n : Name) :
    Reads (boundName expected) [n.boundToken] (Name.respan .bare) (n.respan .bare)
      fun _ => true := by
  rw [Name.boundToken]
  split
  · rename_i h
    refine Reads.look (x := true) (fun c rest hc htoks _ => ?_) ?_
    · simp [Cursor.isAt, hc.token_eq_first, htoks]
    · exact Reads.advance_bind (by simp) fun tok _ => Reads.pure (by simp [Name.respan, h])
  · refine Reads.look (x := false) (fun c rest hc htoks _ => ?_) (Reads.name n)
    simp [Cursor.isAt, hc.token_eq_first, htoks]

theorem reads_param {s : Style} {p : Param Concrete.Expr} (hnames : p.names ≠ [])
    (htype : ReadsExpr inner.expr s p.type) :
    Reads inner.param (paramTokens s p) (paramRespan .bare) (paramRespan .bare p)
      fun _ => true := by
  have hstart : ∀ n : Name, n.boundToken ≠ .colon := by
    intro n
    rw [Name.boundToken]
    split <;> simp
  have hbound : Reads (whileAt (!·.isAt .colon) (boundName "a parameter name"))
      (p.names.flatMap fun n => [n.boundToken]) (List.map (Name.respan .bare))
      (p.names.map (Name.respan .bare)) fun t => !(t ≠ .colon) && true :=
    Reads.whileAt (· ≠ .colon) (fun _ => true) (fun c => by simp [Cursor.isAt])
      (fun n _ => reads_boundName n)
      (fun n _ => ⟨n.boundToken, [], rfl, by simpa using hstart n, rfl⟩)
  rw [← List.map_eq_flatMap] at hbound
  simp only [Concrete.paramTokens_eq, List.cons_append, List.append_assoc]
  refine Reads.advance_bind (by split <;> simp) fun opening hopening => ?_
  refine Reads.bind hbound (fun rest _ => by simp) fun names hns => ?_
  have hempty : names.isEmpty = false := by
    cases names with
    | nil => exact absurd (List.map_eq_nil_iff.1 hns.symm) hnames
    | cons => rfl
  simp only [hempty, Bool.false_eq_true, if_false]
  refine Reads.advance_bind (by simp) fun _ _ => ?_
  refine Reads.bind htype (fun rest _ => ?_) fun type hty => ?_
  · cases p.isImplicit <;> rfl
  · have hresult : ∀ span, paramRespan .bare ⟨span, p.isImplicit, names, type⟩ =
        paramRespan .bare p := by
      intro span
      rw [Concrete.paramRespan_eq, Concrete.paramRespan_eq, hns, hty]
      rfl
    rw [hopening]
    cases hi : p.isImplicit with
    | true =>
      simp only [if_true, decide_true]
      refine Reads.expect_bind (by simp) ?_
      exact Reads.spanFrom fun span => Reads.pure (hi ▸ hresult span)
    | false =>
      simp only [Bool.false_eq_true, if_false, reduceCtorEq, decide_false]
      refine Reads.expect_bind (by simp) ?_
      exact Reads.spanFrom fun span => Reads.pure (hi ▸ hresult span)

/-! ## Forms -/

theorem reads_binding {s : Style} {expected : String} {b : Binding Concrete.Expr}
    (hnames : ∀ p, b = .typed p → p.names ≠ [])
    (htypes : ∀ p, b = .typed p → ReadsExpr inner.expr s p.type) :
    Reads (inner.binding expected) (bindingTokens s b) (bindingRespan .bare)
      (bindingRespan .bare b) fun _ => true := by
  cases b with
  | name n =>
    refine Reads.look (x := false) (fun c rest hc htoks _ => ?_) ?_
    · have hat : c.token = n.boundToken := by rw [hc.token_eq_first, htoks]; rfl
      rw [Name.boundToken] at hat
      split at hat <;> simp [atBracket, Cursor.isAt, hat]
    · exact (reads_boundName n).map fun a ha => by rw [bindingRespan, bindingRespan, ha]
  | typed p =>
    refine Reads.look (x := true) (fun c rest hc htoks _ => ?_) ?_
    · have hat : c.token = if p.isImplicit then .lbrace else .lparen := by
        rw [hc.token_eq_first, htoks, bindingTokens, Concrete.paramTokens_eq]
        rfl
      split at hat <;> simp [atBracket, Cursor.isAt, hat]
    · refine Reads.look (x := true) (fun c rest hc htoks _ => atTypedParam_param htoks) ?_
      refine (reads_param (hnames p rfl) (htypes p rfl)).map fun a ha => ?_
      rw [bindingRespan, bindingRespan, ha]

theorem binding_head (s : Style) (b : Binding Concrete.Expr) :
    ∃ t us, bindingTokens s b = t :: us ∧ t ≠ .arrow := by
  cases b with
  | name n =>
    refine ⟨n.boundToken, [], rfl, ?_⟩
    rw [Name.boundToken]
    split <;> simp
  | typed p =>
    refine ⟨_, _, by rw [bindingTokens, Concrete.paramTokens_eq]; rfl, ?_⟩
    split <;> simp

theorem reads_bindings {s : Style} {expected : String} {bs : List (Binding Concrete.Expr)}
    (hne : bs ≠ []) (hnames : ∀ p, .typed p ∈ bs → p.names ≠ [])
    (htypes : ∀ p, .typed p ∈ bs → ReadsExpr inner.expr s p.type) :
    Reads (inner.bindings expected) (bs.flatMap (bindingTokens s) ++ [.arrow])
      (List.map (bindingRespan .bare)) (bs.map (bindingRespan .bare)) fun _ => true := by
  have heach : Reads (whileAt (!·.isAt .arrow) (inner.binding expected))
      (bs.flatMap (bindingTokens s)) (List.map (bindingRespan .bare))
      (bs.map (bindingRespan .bare)) fun t => !(t ≠ .arrow) && true := by
    refine Reads.whileAt (· ≠ .arrow) (fun _ => true) (fun c => by simp [Cursor.isAt])
      (fun b hb => ?_) (fun b _ => ?_)
    · exact reads_binding (fun p hp => hnames p (hp ▸ hb)) (fun p hp => htypes p (hp ▸ hb))
    · obtain ⟨t, us, hb, ht⟩ := binding_head s b
      exact ⟨t, us, hb, by simpa using ht, rfl⟩
  refine Reads.bind heach (fun rest _ => by simp) fun bindings hbs => ?_
  have hempty : bindings.isEmpty = false := by
    cases bindings with
    | nil => exact absurd (List.map_eq_nil_iff.1 hbs.symm) hne
    | cons => rfl
  simp only [hempty, Bool.false_eq_true, if_false]
  exact Reads.advance_bind (by simp) fun _ _ => Reads.pure hbs

theorem reads_bind {s : Style} {span : Span} {binder : Binder} {expected : String}
    {bs : List (Binding Concrete.Expr)} {body : Concrete.Expr} (hne : bs ≠ [])
    (hnames : ∀ p, .typed p ∈ bs → p.names ≠ [])
    (htypes : ∀ p, .typed p ∈ bs → ReadsExpr inner.expr s p.type)
    (hbody : ReadsExpr inner.expr s body) :
    ReadsExpr (inner.bind binder expected) s (.bind span binder bs body) := by
  have hwritten : exprTokens s (.bind span binder bs body) =
      binder.token :: (bs.flatMap (bindingTokens s) ++ [.arrow] ++ exprTokens s body) := by
    rw [exprTokens, Concrete.bindingsTokens_eq]
    simp
  rw [ReadsExpr, hwritten]
  refine Reads.advance_bind (by cases binder <;> simp [Binder.token]) fun _ _ => ?_
  refine Reads.then_ (reads_bindings hne hnames htypes) fun bindings hbs => ?_
  refine Reads.bindLast hbody fun body' hbody' => ?_
  refine Reads.spanFrom fun span' => Reads.pure ?_
  simp only [exprRespan, Concrete.bindingsRespan_eq, Respan.bare_other, hbs, hbody']

theorem reads_letIn {s : Style} {span : Span} {ds : List (Decl Concrete.Expr)}
    {body : Concrete.Expr}
    (hdecls : Reads inner.decls (s.block (declsTokens s s ds))
      (List.map (declRespan .bare)) (ds.map (declRespan .bare)) fun _ => true)
    (hbody : ReadsExpr inner.expr s body) :
    ReadsExpr inner.letIn s (.letIn span ds body) := by
  rw [ReadsExpr, exprTokens]
  refine Reads.advance_bind (by simp) fun _ _ => ?_
  refine Reads.then_ hdecls fun decls hds => ?_
  refine Reads.expect_bind (by simp) ?_
  refine Reads.bindLast hbody fun body' hbody' => ?_
  refine Reads.spanFrom fun span' => Reads.pure ?_
  simp only [exprRespan, Concrete.declsRespan_eq, Respan.bare_other, hds, hbody']

/-! ## Atoms -/

theorem reads_paren {s : Style} {span : Span} {e : Concrete.Expr}
    (he : ReadsExpr inner.expr s e) :
    Reads inner.paren (atomTokens s (.paren span e)) (atomRespan .bare)
      (atomRespan .bare (.paren span e)) fun _ => true := by
  rw [atomTokens]
  refine Reads.advance_bind (by simp) fun _ _ => ?_
  refine Reads.bind he (fun rest _ => rfl) fun e' he' => ?_
  refine Reads.expect_bind (by simp) ?_
  refine Reads.spanFrom fun span' => Reads.pure ?_
  simp only [atomRespan, Respan.bare_other, he']

theorem reads_leaf {t : Token} {make : Span → Leaf} (ht : t ≠ .eof) {l : Leaf}
    (hmake : ∀ span, (make span).respan .bare = l.respan .bare) :
    Reads (leaf make) [t] (atomRespan .bare) (atomRespan .bare (.leaf l)) fun _ => true := by
  refine Reads.advance_bind ht fun tok _ => Reads.pure ?_
  rw [atomRespan, atomRespan, hmake]

/-- An assignment in writing. -/
def assignmentTokens (s : Style) (f : Assignment Concrete.Expr) : List Token :=
  f.name.token :: .equals :: exprTokens s f.value

/-- An assignment with its spans changed. -/
def assignmentRespan (g : Respan) (f : Assignment Concrete.Expr) : Assignment Concrete.Expr :=
  ⟨g.other f.span, f.name.respan g, exprRespan g f.value⟩

theorem reads_assignment {s : Style} {f : Assignment Concrete.Expr}
    (hvalue : ReadsExpr inner.expr s f.value) :
    Reads inner.assignment (assignmentTokens s f) (assignmentRespan .bare)
      (assignmentRespan .bare f) Token.endsExpr := by
  refine Reads.name_bind f.name fun name hname => ?_
  refine Reads.expect_bind (by simp) ?_
  refine Reads.bindLast hvalue fun value hv => ?_
  refine Reads.spanFrom fun span => Reads.pure ?_
  simp only [assignmentRespan, Respan.bare_other, hname, hv]

theorem reads_assignments {s : Style} {fs : List (Assignment Concrete.Expr)}
    (hvalues : ∀ f ∈ fs, ReadsExpr inner.expr s f.value) :
    Reads inner.assignments ([Token.semicolon].intercalate (fs.map (assignmentTokens s)))
      (List.map (assignmentRespan .bare)) (fs.map (assignmentRespan .bare)) (· = .rbrace) := by
  cases fs with
  | nil =>
    refine Reads.look (x := true) (fun c rest hc htoks h => ?_) (Reads.pure rfl)
    have hat : c.token = .rbrace := by rw [hc.token_eq_first, htoks]; simpa using h
    simp [Cursor.isAt, hat]
  | cons f fs =>
    have hothers : Reads (whileAt (!·.isAt .rbrace) do
          expect .semicolon "between record fields"
          inner.assignment) (fs.flatMap fun f => .semicolon :: assignmentTokens s f)
        (List.map (assignmentRespan .bare)) (fs.map (assignmentRespan .bare))
        fun t => !(t ≠ .rbrace) && t.endsExpr :=
      Reads.whileAt (· ≠ .rbrace) Token.endsExpr (fun c => by simp [Cursor.isAt])
        (fun f hf => Reads.expect_bind (by simp)
          (reads_assignment (hvalues f (List.mem_cons_of_mem _ hf))))
        (fun f _ => ⟨.semicolon, _, rfl, rfl, rfl⟩)
    rw [List.map_cons, intercalate_cons, List.flatMap_map]
    refine Reads.look (x := false) (fun c rest hc htoks _ => ?_) ?_
    · simp [Cursor.isAt, hc.token_eq_first, htoks, assignmentTokens, Name.token]
    · refine Reads.bind (reads_assignment (hvalues f List.mem_cons_self)) (fun rest h => ?_)
        fun first hfirst => ?_
      · obtain h : Token.first rest = .rbrace := by simpa using h
        refine Token.first_append Token.endsExpr (fun t ht => ?_) (by rw [h]; rfl)
        cases fs with
        | nil => simp at ht
        | cons g gs =>
          obtain rfl : Token.semicolon = t := by simpa using ht
          rfl
      · refine Reads.bindLast (hothers.mono fun t h => ?_) fun others hos => Reads.pure ?_
        · obtain rfl : t = .rbrace := by simpa using h
          rfl
        · rw [List.map_cons, List.map_cons, hfirst, hos]

theorem reads_recordValue {s : Style} {span : Span} {builder : Option QualifiedName}
    {fs : List (Assignment Concrete.Expr)} (hbuilder : ∀ q ∈ builder, q.segments ≠ [])
    (hvalues : ∀ f ∈ fs, ReadsExpr inner.expr s f.value) :
    Reads inner.recordValue (atomTokens s (.record span builder fs)) (atomRespan .bare)
      (atomRespan .bare (.record span builder fs)) fun _ => true := by
  have hrest : ∀ (n : Nat) (q : Option QualifiedName),
      q.map (QualifiedName.respan .bare) = builder.map (QualifiedName.respan .bare) →
      Reads (do
          expect .lbrace "to start record fields"
          let fields ← inner.assignments
          let _ ← advance
          return .record (← Parser.spanFrom n) q fields)
        (.lbrace :: ([Token.semicolon].intercalate (fs.map (assignmentTokens s)) ++ [.rbrace]))
        (atomRespan .bare) (atomRespan .bare (.record span builder fs)) fun _ => true := by
    intro n q hq
    refine Reads.expect_bind (by simp) ?_
    refine Reads.bind (reads_assignments hvalues) (fun _ _ => rfl) fun fields hfields => ?_
    refine Reads.advance_bind (by simp) fun _ _ => Reads.spanFrom fun span' => Reads.pure ?_
    simp only [atomRespan, Concrete.assignmentsRespan_eq, Respan.bare_other, hq]
    exact congrArg _ hfields
  have hwritten : atomTokens s (.record span builder fs) =
      .kwRecord :: ((builder.map (·.tokens)).getD [] ++ .lbrace ::
        ([Token.semicolon].intercalate (fs.map (assignmentTokens s)) ++ [.rbrace])) := by
    rw [atomTokens, Concrete.assignmentsTokens_eq, List.append_assoc]
    rfl
  rw [hwritten]
  refine Reads.advance_bind (by simp) fun keyword _ => ?_
  cases builder with
  | none =>
    refine Reads.look (x := false) (fun c rest hc htoks _ => ?_) ?_
    · simp [atIdent, hc.token_eq_first, htoks, Token.isIdent]
    · exact hrest _ none rfl
  | some q =>
    obtain ⟨text, us, hhead⟩ := Concrete.qualified_head (hbuilder q rfl)
    refine Reads.look (x := true) (fun c rest hc htoks _ => ?_) ?_
    · simp [atIdent, hc.token_eq_first, htoks, hhead, Token.isIdent]
    · have hname : Reads (some <$> qualifiedName "a record constructor") q.tokens
          (Option.map (QualifiedName.respan .bare)) (some (q.respan .bare)) (· ≠ .dot) :=
        (Reads.qualifiedName (hbuilder q rfl)).map fun a ha => by rw [Option.map_some, ha]
      exact Reads.bind hname (fun _ _ => rfl) fun q' hq' => hrest _ q' hq'

/-- An atom other than a form is read before anything but a dot. -/
theorem reads_atom (hsep : sep.isSeparator = true) {a : Concrete.Atom}
    (ha : a.WellFormed limit levels) (htail : a.isTail = false)
    (hexpr : ∀ e : Concrete.Expr, e.WellFormed limit levels → ReadsExpr inner.expr (.marked sep) e) :
    Reads inner.atom (atomTokens (.marked sep) a) (atomRespan .bare) (atomRespan .bare a)
      (· != .dot) := by
  cases ha with
  | @leaf _ l segments =>
    cases l with
    | name q =>
      obtain ⟨text, us, hhead⟩ := Concrete.qualified_head (segments q rfl)
      rw [atomTokens]
      refine Reads.lookToken (t := .ident text) (by rw [Leaf.tokens, hhead]; rfl) ?_
      refine Reads.bindLast ((Reads.qualifiedName (segments q rfl)).mono fun t h => by simpa using h)
        fun q' hq' => Reads.pure ?_
      rw [atomRespan, atomRespan, Leaf.respan, Leaf.respan, hq']
    | hole | unit | type | integer =>
      rw [atomTokens]
      refine Reads.lookToken rfl (Reads.mono ?_ fun _ _ => rfl)
      exact reads_leaf (by simp) fun _ => rfl
  | paren inner' =>
    refine Reads.lookToken (by rw [atomTokens]; rfl) ?_
    refine Reads.look (x := false) (fun c rest hc htoks _ => ?_) ?_
    · rw [atomTokens] at htoks
      exact atTypedParam_paren hsep (by simpa using htoks)
    · exact Reads.mono (reads_paren (hexpr _ inner')) fun _ _ => rfl
  | @param _ p names type =>
    have hparam : Reads (Concrete.Atom.param <$> inner.param) (atomTokens (.marked sep) (.param p))
        (atomRespan .bare) (atomRespan .bare (.param p)) (· != .dot) := by
      rw [atomTokens]
      refine Reads.mono (Reads.map (reads_param names (hexpr p.type type)) fun a ha => ?_)
        fun _ _ => rfl
      rw [atomRespan, atomRespan, ha]
    cases hi : p.isImplicit with
    | true =>
      refine Reads.lookToken (t := .lbrace) ?_ hparam
      rw [atomTokens, Concrete.paramTokens_eq, hi]
      rfl
    | false =>
      refine Reads.lookToken (t := .lparen) ?_ (Reads.look (x := true) (fun c rest hc htoks _ => ?_)
        hparam)
      · rw [atomTokens, Concrete.paramTokens_eq, hi]
        rfl
      · rw [atomTokens] at htoks
        exact atTypedParam_param htoks
  | record segments values =>
    refine Reads.lookToken (by rw [atomTokens]; rfl) (Reads.mono ?_ fun _ _ => rfl)
    exact reads_recordValue segments fun f hf => hexpr f.value (values f hf)
  | tail => simp [Concrete.Atom.isTail] at htail

/-! ## Runs -/

theorem reads_atoms (hsep : sep.isSeparator = true) {atoms : List Concrete.Atom}
    (hatoms : ∀ a ∈ atoms, a.WellFormed limit levels) (htail : ∀ a ∈ atoms, a.isTail = false)
    (hexpr : ∀ e : Concrete.Expr, e.WellFormed limit levels → ReadsExpr inner.expr (.marked sep) e) :
    Reads (whileAt atAtom inner.atom) (atoms.flatMap (atomTokens (.marked sep)))
      (List.map (atomRespan .bare)) (atoms.map (atomRespan .bare))
      fun t => !t.startsAtom && t != .dot := by
  refine Reads.whileAt Token.startsAtom (· != .dot) atAtom_eq (fun a ha => ?_) fun a ha => ?_
  · exact reads_atom hsep (hatoms a ha) (htail a ha) hexpr
  · obtain ⟨t, us, hwritten, ht, -⟩ :=
      Concrete.atom_head (.marked sep) (hatoms a ha) (htail a ha)
    refine ⟨t, us, hwritten, ht, ?_⟩
    cases t <;> first | rfl | cases ht

/-- A run without a form at its end. -/
theorem reads_plainRun (hsep : sep.isSeparator = true) {atoms : List Concrete.Atom}
    (hne : atoms ≠ []) (hatoms : ∀ a ∈ atoms, a.WellFormed limit levels)
    (htail : ∀ a ∈ atoms, a.isTail = false)
    (hexpr : ∀ e : Concrete.Expr, e.WellFormed limit levels → ReadsExpr inner.expr (.marked sep) e) :
    Reads inner.run (atoms.flatMap (atomTokens (.marked sep))) (List.map (atomRespan .bare))
      (atoms.map (atomRespan .bare)) Token.endsRun := by
  refine Reads.bindLast ((reads_atoms hsep hatoms htail hexpr).mono fun t h => ?_)
    fun read hread => ?_
  · simp only [Token.endsRun, Bool.and_eq_true] at h ⊢
    exact ⟨h.1.1, h.2⟩
  · refine Reads.look (x := false) (fun c rest hc htoks h => ?_) ?_
    · simp only [Token.endsRun, Bool.and_eq_true, Bool.not_eq_true'] at h
      rw [atTail_eq, hc.token_eq_first, htoks]
      exact h.1.2
    · have hnone : Reads (Pure.pure [] : Parser (List Concrete.Atom)) [] id [] Token.endsRun :=
        Reads.pure rfl
      refine Reads.bindLast hnone fun last hlast => ?_
      obtain rfl : last = [] := hlast
      have hempty : (read ++ []).isEmpty = false := by
        cases read with
        | nil => exact absurd (List.map_eq_nil_iff.1 hread.symm) hne
        | cons => rfl
      simp only [hempty, Bool.false_eq_true, if_false]
      exact Reads.pure (by rw [List.append_nil, hread])

/-- A run with a form at its end, which extends as far right as it can. -/
theorem reads_tailRun (hsep : sep.isSeparator = true) {atoms : List Concrete.Atom}
    {e : Concrete.Expr} (hatoms : ∀ a ∈ atoms, a.WellFormed limit levels)
    (htail : ∀ a ∈ atoms, a.isTail = false) (he : e.WellFormed limit levels)
    (hform : e.isForm = true)
    (hexpr : ∀ e : Concrete.Expr, e.WellFormed limit levels → ReadsExpr inner.expr (.marked sep) e) :
    Reads inner.run ((atoms ++ [Concrete.Atom.tail e]).flatMap (atomTokens (.marked sep)))
      (List.map (atomRespan .bare)) ((atoms ++ [Concrete.Atom.tail e]).map (atomRespan .bare))
      Token.endsExpr := by
  obtain ⟨t, us, hwritten, ht⟩ : ∃ t us, exprTokens (.marked sep) e = t :: us ∧
      t.startsTail = true := by
    cases e with
    | run | arrow => simp [Concrete.Expr.isForm] at hform
    | bind span binder => exact ⟨binder.token, _, by rw [exprTokens]; rfl, by cases binder <;> rfl⟩
    | letIn => exact ⟨.kwLet, _, by rw [exprTokens]; rfl, rfl⟩
  rw [List.flatMap_append, List.flatMap_singleton, atomTokens]
  refine Reads.bind (reads_atoms hsep hatoms htail hexpr) (fun rest _ => ?_) fun read hread => ?_
  · rw [hwritten]
    cases t <;> first | rfl | simp [Token.startsTail] at ht
  · refine Reads.look (x := true) (fun c rest hc htoks _ => ?_) ?_
    · rw [atTail_eq, hc.token_eq_first, htoks, hwritten]
      exact ht
    · have hlast : Reads ((fun e => [Concrete.Atom.tail e]) <$> inner.expr)
          (exprTokens (.marked sep) e) (List.map (atomRespan .bare))
          [atomRespan .bare (.tail e)] Token.endsExpr :=
        (hexpr e he).map fun a ha => by rw [List.map_singleton, atomRespan, atomRespan, ha]
      refine Reads.bindLast hlast fun last hlast => ?_
      have hempty : (read ++ last).isEmpty = false := by
        cases last with
        | nil => simp at hlast
        | cons => simp
      simp only [hempty, Bool.false_eq_true, if_false]
      exact Reads.pure (by rw [List.map_append, List.map_append, hread, hlast]; rfl)

theorem reads_run (hsep : sep.isSeparator = true) {atoms : List Concrete.Atom}
    (shape : Concrete.RunShape atoms) (hatoms : ∀ a ∈ atoms, a.WellFormed limit levels)
    (hexpr : ∀ e : Concrete.Expr, e.WellFormed limit levels → ReadsExpr inner.expr (.marked sep) e) :
    Reads inner.run (atoms.flatMap (atomTokens (.marked sep))) (List.map (atomRespan .bare))
      (atoms.map (atomRespan .bare)) Token.endsExpr := by
  have hsplit := List.dropLast_append_getLast shape.ne_nil
  have hlast := hatoms _ (List.getLast_mem shape.ne_nil)
  have hinit : ∀ a ∈ atoms.dropLast, a.WellFormed limit levels := fun a ha =>
    hatoms a (List.dropLast_subset _ ha)
  cases htail : (atoms.getLast shape.ne_nil).isTail with
  | true =>
    generalize atoms.getLast shape.ne_nil = a at *
    cases hlast with
    | tail hform he =>
      rw [← hsplit]
      exact reads_tailRun hsep hinit shape.dropLast_isTail he hform hexpr
    | leaf | paren | param | record => simp [Concrete.Atom.isTail] at htail
  | false =>
    refine Reads.mono (reads_plainRun hsep shape.ne_nil hatoms (fun a ha => ?_) hexpr)
      fun _ => Token.endsRun_of_endsExpr
    rw [← hsplit, List.mem_append, List.mem_singleton] at ha
    rcases ha with ha | rfl
    · exact shape.dropLast_isTail a ha
    · exact htail

/-! ## Expressions -/

/-- The grammar of expressions reads every expression of one level more than
what its parts are read at. -/
theorem reads_expression (hsep : sep.isSeparator = true)
    (hexpr : ∀ e : Concrete.Expr, e.WellFormed limit levels → ReadsExpr inner.expr (.marked sep) e)
    (hdecls : ∀ n ds, levels = n + 1 → (∀ d ∈ ds, Concrete.Decl.WellFormed limit n d) →
      Reads inner.decls ((Style.marked sep).block (declsTokens (.marked sep) (.marked sep) ds))
        (List.map (declRespan .bare)) (ds.map (declRespan .bare)) fun _ => true)
    {e : Concrete.Expr} (he : e.WellFormed limit (levels + 1)) :
    ReadsExpr inner.expression (.marked sep) e := by
  cases he with
  | @run _ span atoms shape each =>
    obtain ⟨t, us, hwritten, ht, -⟩ := Concrete.atoms_head (.marked sep) shape.ne_nil (by
      intro a ha
      obtain ⟨as, rfl⟩ := List.head?_eq_some_iff.1 ha
      exact shape.head_isTail) each
    have hrun : ReadsExpr inner.runOrArrow (.marked sep) (.run span atoms) := by
      rw [ReadsExpr, exprTokens, Concrete.atomsTokens_eq]
      refine Reads.start fun n => Reads.bindLast (reads_run hsep shape each hexpr) fun read hread => ?_
      refine Reads.eatNone_bind (fun rest h => ?_) (Reads.spanFrom fun span' => Reads.pure ?_)
      · simp only [Token.endsExpr, Bool.and_eq_true, bne_iff_ne] at h
        exact h.2
      · simp only [exprRespan, Concrete.atomsRespan_eq, Respan.bare_run, hread]
    refine Reads.lookToken (t := t) (by rw [exprTokens, Concrete.atomsTokens_eq, hwritten]; rfl) ?_
    cases t <;> first | exact hrun | cases ht
  | @arrow _ span domain codomain ne_nil isTail each target =>
    obtain ⟨t, us, hwritten, ht, -⟩ := Concrete.atoms_head (.marked sep) ne_nil
      (fun a ha => isTail a (List.mem_of_mem_head? ha)) each
    have harrow : ReadsExpr inner.runOrArrow (.marked sep) (.arrow span domain codomain) := by
      rw [ReadsExpr, exprTokens, Concrete.atomsTokens_eq]
      refine Reads.start fun n => Reads.bind (reads_plainRun hsep ne_nil each isTail hexpr)
        (fun _ _ => rfl) fun read hread => ?_
      refine Reads.eat_bind (by simp) (Reads.bindLast (hexpr _ target) fun codomain' hcod => ?_)
      refine Reads.spanFrom fun span' => Reads.pure ?_
      simp only [exprRespan, Concrete.atomsRespan_eq, Respan.bare_other, hread, hcod]
    refine Reads.lookToken (t := t) (by rw [exprTokens, Concrete.atomsTokens_eq, hwritten]; rfl) ?_
    cases t <;> first | exact harrow | cases ht
  | @bind _ span binder bindings body ne_nil names types result =>
    refine Reads.lookToken (by rw [exprTokens]; rfl) ?_
    cases binder <;>
      exact reads_bind ne_nil names (fun p hp => hexpr p.type (types p hp)) (hexpr body result)
  | letIn each result =>
    refine Reads.lookToken (by rw [exprTokens]; rfl) ?_
    exact reads_letIn (hdecls _ _ rfl each) (hexpr _ result)

end Inner

end Parser

end Offside
