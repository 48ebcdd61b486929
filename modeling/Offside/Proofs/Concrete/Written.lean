-- SUMMARY: Concrete trees written as tokens, their well-formedness, and trees up to spans.
import Offside.Concrete
import Offside.Token

/-! # Written trees

A concrete tree is written from left to right as tokens. Trees do not say how
their blocks are delimited, so the writing is given over a `Style`: with the
markers that layout resolution puts in, or with nothing at all. `WellFormed` is
what every tree of the grammar satisfies, and `respan` forgets places. -/

namespace Offside

theorem intercalate_cons {α : Type} (sep x : List α) (xs : List (List α)) :
    sep.intercalate (x :: xs) = x ++ xs.flatMap fun y => sep ++ y := by
  induction xs generalizing x with
  | nil => simp [List.intercalate]
  | cons y ys ih => rw [List.intercalate_cons_cons, ih, List.flatMap_cons]; simp

/-! ## Styles -/

/-- How the blocks of a tree are written. -/
structure Style where
  /-- What stands before the items of a block. -/
  opening : List Token
  /-- What stands between two items. -/
  separator : List Token
  /-- What stands after the items. -/
  closing : List Token
  /-- The members of a record type in the order of writing. Each one comes with
  the offset at which it starts. -/
  arrange : List (Nat × List Token) → List (List Token)

namespace Style

/-- A block of items. -/
def block (s : Style) (items : List (List Token)) : List Token :=
  s.opening ++ s.separator.intercalate items ++ s.closing

/-- Blocks between the markers of resolved layout, with `sep` between items. -/
def marked (sep : Token) : Style := ⟨[.blockStart], [sep], [.blockEnd], List.map (·.2)⟩

/-- Blocks without any delimiters, and record members in the order of their
places. -/
def plain : Style where
  opening := []
  separator := []
  closing := []
  arrange members := (members.mergeSort fun a b => a.1 ≤ b.1).map (·.2)

theorem plain_block (items : List (List Token)) : plain.block items = items.flatten := by
  change [].intercalate items ++ [] = items.flatten
  cases items with
  | nil => rfl
  | cons item items => simp [intercalate_cons, List.flatMap_id']

end Style

/-! ## Names and leaves -/

/-- An identifier. -/
def Name.token (n : Name) : Token := .ident n.text

/-- The name of a binder, which may be an underscore. -/
def Name.boundToken (n : Name) : Token :=
  if n.text = "_" then .underscore else .ident n.text

/-- Identifiers with dots between. -/
def QualifiedName.tokens (q : QualifiedName) : List Token :=
  (q.segments.map Name.token).intersperse .dot

theorem QualifiedName.tokens_cons (span : Span) (n : Name) (ns : List Name) :
    QualifiedName.tokens ⟨span, n :: ns⟩ = n.token :: ns.flatMap fun n => [.dot, n.token] := by
  rw [tokens]
  induction ns generalizing n with
  | nil => rfl
  | cons m ns ih =>
    rw [List.map_cons, List.map_cons, List.intersperse_cons_cons, ← List.map_cons, ih m]
    rfl

/-- A leaf in writing. -/
def Leaf.tokens : Leaf → List Token
  | name q => q.tokens
  | hole _ => [.underscore]
  | unit _ => [.unit]
  | type _ => [.kwType]
  | integer _ value => [.integer value]

/-- The keyword of a binder. -/
def Binder.token : Binder → Token
  | lambda => .backslash
  | forallType => .kwForall

/-- The keywords of an import. -/
def ImportKind.tokens : ImportKind → List Token
  | importOnly => [.kwImport]
  | openOnly => [.kwOpen]
  | openImport => [.kwOpen, .kwImport]

namespace Concrete

/-! ## Trees -/

mutual

/-- An expression in writing. The blocks of its `let` forms are in style `s`. -/
def exprTokens (s : Style) : Expr → List Token
  | .run _ atoms => atomsTokens s atoms
  | .arrow _ domain codomain => atomsTokens s domain ++ .arrow :: exprTokens s codomain
  | .bind _ binder bindings body =>
    binder.token :: bindingsTokens s bindings ++ .arrow :: exprTokens s body
  | .letIn _ decls body =>
    .kwLet :: s.block (declsTokens s s decls) ++ .kwIn :: exprTokens s body

/-- The atoms of a run. -/
def atomsTokens (s : Style) : List Atom → List Token
  | [] => []
  | a :: as => atomTokens s a ++ atomsTokens s as

/-- An atom in writing. -/
def atomTokens (s : Style) : Atom → List Token
  | .leaf l => l.tokens
  | .paren _ e => .lparen :: exprTokens s e ++ [.rparen]
  | .param p => paramTokens s p
  | .record _ builder fields =>
    .kwRecord :: (builder.map (·.tokens)).getD [] ++
      .lbrace :: [Token.semicolon].intercalate (assignmentsTokens s fields) ++ [.rbrace]
  | .tail e => exprTokens s e

/-- Each of the assignments of a record value. -/
def assignmentsTokens (s : Style) : List (Assignment Expr) → List (List Token)
  | [] => []
  | ⟨_, name, value⟩ :: fields =>
    (name.token :: .equals :: exprTokens s value) :: assignmentsTokens s fields

/-- A typed parameter in its brackets. -/
def paramTokens (s : Style) : Param Expr → List Token
  | ⟨_, isImplicit, names, type⟩ =>
    (if isImplicit then .lbrace else .lparen) :: names.map Name.boundToken ++
      .colon :: exprTokens s type ++ [if isImplicit then .rbrace else .rparen]

/-- The typed parameters of a header. -/
def paramsTokens (s : Style) : List (Param Expr) → List Token
  | [] => []
  | p :: ps => paramTokens s p ++ paramsTokens s ps

/-- The bindings of a lambda or quantifier. -/
def bindingsTokens (s : Style) : List (Binding Expr) → List Token
  | [] => []
  | .name n :: bs => n.boundToken :: bindingsTokens s bs
  | .typed p :: bs => paramTokens s p ++ bindingsTokens s bs

/-- An expression after `before`, if there is one. -/
def optionTokens (s : Style) (before : Token) : Option Expr → List Token
  | none => []
  | some e => before :: exprTokens s e

/-- Expressions one after another, each after the tokens `before`. -/
def exprsTokens (s : Style) (before : List Token) : List Expr → List Token
  | [] => []
  | e :: es => before ++ exprTokens s e ++ exprsTokens s before es

/-- Each of some constructors, fields or ascriptions. -/
def signaturesTokens (s : Style) : List (Signature Expr) → List (List Token)
  | [] => []
  | ⟨_, names, type⟩ :: ss =>
    (names.map Name.token ++ .colon :: exprTokens s type) :: signaturesTokens s ss

/-- The header of a data or record type. -/
def headerTokens (s : Style) : Header Expr → List Token
  | ⟨name, params, type⟩ => name.token :: paramsTokens s params ++ optionTokens s .colon type

/-- A declaration in writing. Its own blocks are in style `outer`, those of the
`let` forms in it in style `s`. The block of a clause is left out if it is
empty. -/
def declTokens (outer s : Style) : Decl Expr → List Token
  | .dataType _ header constructors =>
    .kwData :: headerTokens s header ++ .kwWhere :: outer.block (signaturesTokens s constructors)
  | .emptyData _ header => .kwData :: headerTokens s header
  | .recordType _ header builder fields decls =>
    .kwRecord :: headerTokens s header ++ .kwWhere ::
      outer.block (outer.arrange
        (builder.toList.map (fun n => (n.span.start, [.kwConstructor, n.token])) ++
          (fields.map (·.span.start)).zip ((signaturesTokens s fields).map (.kwField :: ·)) ++
          (decls.map (·.span.start)).zip (declsTokens outer s decls)))
  | .moduleBlock _ name params decls =>
    .kwModule :: name.tokens ++ paramsTokens s params ++ .kwWhere ::
      outer.block (declsTokens outer s decls)
  | .importModule _ kind name => kind.tokens ++ name.tokens
  | .ascription ⟨_, names, type⟩ => names.map Name.token ++ .colon :: exprTokens s type
  | .clause _ patterns _ withPatterns withExpr rhs locals =>
    exprsTokens s [] patterns ++ exprsTokens s [.pipe] withPatterns ++
      optionTokens s .kwWith withExpr ++ optionTokens s .equals rhs ++
      if locals.isEmpty then [] else .kwWhere :: outer.block (declsTokens outer s locals)
  | .fixity _ fixity operators =>
    .kwFixity fixity.assoc :: .integer (.ofNat fixity.precedence) :: operators.map Name.token

/-- Each of some declarations. -/
def declsTokens (outer s : Style) : List (Decl Expr) → List (List Token)
  | [] => []
  | d :: ds => declTokens outer s d :: declsTokens outer s ds

end

section

variable (outer s : Style)

@[simp] theorem atomsTokens_eq (atoms : List Atom) :
    atomsTokens s atoms = atoms.flatMap (atomTokens s) := by
  induction atoms with
  | nil => rfl
  | cons a as ih => rw [atomsTokens, ih, List.flatMap_cons]

@[simp] theorem assignmentsTokens_eq (fields : List (Assignment Expr)) :
    assignmentsTokens s fields =
      fields.map fun f => f.name.token :: .equals :: exprTokens s f.value := by
  induction fields with
  | nil => rfl
  | cons f fs ih => rw [assignmentsTokens, ih, List.map_cons]

theorem paramTokens_eq (p : Param Expr) :
    paramTokens s p = (if p.isImplicit then .lbrace else .lparen) :: p.names.map Name.boundToken ++
      .colon :: exprTokens s p.type ++ [if p.isImplicit then .rbrace else .rparen] := by
  cases p
  rw [paramTokens]

@[simp] theorem paramsTokens_eq (ps : List (Param Expr)) :
    paramsTokens s ps = ps.flatMap (paramTokens s) := by
  induction ps with
  | nil => rfl
  | cons p ps ih => rw [paramsTokens, ih, List.flatMap_cons]

/-- One binding in writing. -/
def bindingTokens : Binding Expr → List Token
  | .name n => [n.boundToken]
  | .typed p => paramTokens s p

@[simp] theorem bindingsTokens_eq (bs : List (Binding Expr)) :
    bindingsTokens s bs = bs.flatMap (bindingTokens s) := by
  induction bs with
  | nil => rfl
  | cons b bs ih =>
    cases b with
    | name n => rw [bindingsTokens, ih, List.flatMap_cons]; rfl
    | typed p => rw [bindingsTokens, ih, List.flatMap_cons]; rfl

@[simp] theorem exprsTokens_eq (before : List Token) (es : List Expr) :
    exprsTokens s before es = es.flatMap fun e => before ++ exprTokens s e := by
  induction es with
  | nil => rfl
  | cons e es ih => rw [exprsTokens, ih, List.flatMap_cons]

/-- A signature in writing. -/
def signatureTokens (g : Signature Expr) : List Token :=
  g.names.map Name.token ++ .colon :: exprTokens s g.type

@[simp] theorem signaturesTokens_eq (gs : List (Signature Expr)) :
    signaturesTokens s gs = gs.map (signatureTokens s) := by
  induction gs with
  | nil => rfl
  | cons g gs ih => rw [signaturesTokens, ih, List.map_cons]; rfl

theorem headerTokens_eq (h : Header Expr) :
    headerTokens s h =
      h.name.token :: paramsTokens s h.params ++ optionTokens s .colon h.type := by
  cases h
  rw [headerTokens]

theorem declTokens_ascription (g : Signature Expr) :
    declTokens outer s (.ascription g) = signatureTokens s g := by
  cases g
  rw [declTokens]
  rfl

@[simp] theorem declsTokens_eq (ds : List (Decl Expr)) :
    declsTokens outer s ds = ds.map (declTokens outer s) := by
  induction ds with
  | nil => rfl
  | cons d ds ih => rw [declsTokens, ih, List.map_cons]

end

/-- The declarations of a file, which are a block. -/
def fileTokens (outer s : Style) (decls : List (Decl Expr)) : List Token :=
  outer.block (declsTokens outer s decls)

/-! ## Well-formed trees -/

/-- Whether an atom is a form that extends as far right as it can. -/
def Atom.isTail : Atom → Bool
  | .tail _ => true
  | _ => false

/-- Whether an expression is a lambda, a quantifier or a `let`. -/
def Expr.isForm : Expr → Bool
  | .bind .. | .letIn .. => true
  | _ => false

/-- Whether the first atom of an expression is a record value. -/
def Expr.leadsWithRecord : Expr → Bool
  | .run _ (.record .. :: _) | .arrow _ (.record .. :: _) _ => true
  | _ => false

/-- Only the first atom of a run counts. -/
theorem Expr.leadsWithRecord_cons (span span' : Span) (a : Atom) (as : List Atom) :
    leadsWithRecord (.run span (a :: as)) = leadsWithRecord (.run span' [a]) := by
  cases a <;> rfl

theorem Expr.leadsWithRecord_run (span span' : Span) (atoms : List Atom) :
    leadsWithRecord (.run span atoms) = leadsWithRecord (.run span' atoms) := by
  cases atoms with
  | nil => rfl
  | cons a as => exact (leadsWithRecord_cons _ span' a as).trans (leadsWithRecord_cons _ _ a as).symm

theorem Expr.leadsWithRecord_arrow (span span' : Span) (atoms : List Atom) (codomain : Expr) :
    leadsWithRecord (.arrow span atoms codomain) = leadsWithRecord (.run span' atoms) := by
  cases atoms with
  | nil => rfl
  | cons a as => cases a <;> rfl

/-- A run is not empty, and a form in it is its last atom and not the only one. -/
structure RunShape (atoms : List Atom) : Prop where
  ne_nil : atoms ≠ []
  dropLast_isTail : ∀ a ∈ atoms.dropLast, a.isTail = false
  ne_tail : ∀ e, atoms ≠ [.tail e]

/-- A run without a form. -/
theorem RunShape.of_isTail {atoms : List Atom} (hne : atoms ≠ [])
    (h : ∀ a ∈ atoms, a.isTail = false) : RunShape atoms := by
  refine ⟨hne, fun a ha => h a (List.dropLast_subset _ ha), ?_⟩
  rintro e rfl
  cases h _ List.mem_cons_self

/-- A run with a form at its end. -/
theorem RunShape.concat {atoms : List Atom} (hne : atoms ≠ []) (h : ∀ a ∈ atoms, a.isTail = false)
    (e : Expr) : RunShape (atoms ++ [.tail e]) := by
  refine ⟨by simp, by rwa [List.dropLast_concat], fun e' he => ?_⟩
  rcases List.append_eq_singleton_iff.1 he with ⟨hnil, -⟩ | ⟨-, hcons⟩
  · exact hne hnil
  · cases hcons

mutual

/-- An expression of the grammar that nests at most `levels` deep. -/
inductive Expr.WellFormed (limit : Nat) : (levels : Nat) → Expr → Prop
  | run {levels span atoms} (shape : RunShape atoms)
      (each : ∀ a ∈ atoms, Atom.WellFormed limit levels a) :
      Expr.WellFormed limit (levels + 1) (.run span atoms)
  | arrow {levels span domain codomain} (ne_nil : domain ≠ [])
      (isTail : ∀ a ∈ domain, a.isTail = false)
      (each : ∀ a ∈ domain, Atom.WellFormed limit levels a)
      (target : Expr.WellFormed limit levels codomain) :
      Expr.WellFormed limit (levels + 1) (.arrow span domain codomain)
  | bind {levels span binder bindings body} (ne_nil : bindings ≠ [])
      (names : ∀ p, .typed p ∈ bindings → p.names ≠ [])
      (types : ∀ p, .typed p ∈ bindings → Expr.WellFormed limit levels p.type)
      (result : Expr.WellFormed limit levels body) :
      Expr.WellFormed limit (levels + 1) (.bind span binder bindings body)
  | letIn {levels span decls body} (each : ∀ d ∈ decls, Decl.WellFormed limit levels d)
      (result : Expr.WellFormed limit (levels + 1) body) :
      Expr.WellFormed limit (levels + 2) (.letIn span decls body)

/-- An atom of the grammar, with parts that nest at most `levels` deep. -/
inductive Atom.WellFormed (limit : Nat) : (levels : Nat) → Atom → Prop
  | leaf {levels l} (segments : ∀ q, l = .name q → q.segments ≠ []) :
      Atom.WellFormed limit levels (.leaf l)
  | paren {levels span e} (inner : Expr.WellFormed limit levels e) :
      Atom.WellFormed limit levels (.paren span e)
  | param {levels p} (names : p.names ≠ []) (type : Expr.WellFormed limit levels p.type) :
      Atom.WellFormed limit levels (.param p)
  | record {levels span builder fields} (segments : ∀ q ∈ builder, q.segments ≠ [])
      (values : ∀ f ∈ fields, Expr.WellFormed limit levels f.value) :
      Atom.WellFormed limit levels (.record span builder fields)
  | tail {levels e} (form : e.isForm = true) (inner : Expr.WellFormed limit levels e) :
      Atom.WellFormed limit levels (.tail e)

/-- A declaration of the grammar, with expressions and blocks that nest at most
`levels` deep. `limit` bounds the precedences, which are written as integers. -/
inductive Decl.WellFormed (limit : Nat) : (levels : Nat) → Decl Expr → Prop
  | dataType {levels span header constructors} (names : ∀ p ∈ header.params, p.names ≠ [])
      (params : ∀ p ∈ header.params, Expr.WellFormed limit (levels + 1) p.type)
      (type : ∀ e ∈ header.type, Expr.WellFormed limit (levels + 1) e)
      (constructorNames : ∀ s ∈ constructors, s.names ≠ [])
      (constructorTypes : ∀ s ∈ constructors, Expr.WellFormed limit levels s.type) :
      Decl.WellFormed limit (levels + 1) (.dataType span header constructors)
  | emptyData {levels span header} (names : ∀ p ∈ header.params, p.names ≠ [])
      (params : ∀ p ∈ header.params, Expr.WellFormed limit levels p.type)
      (type : ∀ e ∈ header.type, Expr.WellFormed limit levels e) :
      Decl.WellFormed limit levels (.emptyData span header)
  | recordType {levels span header builder fields decls}
      (names : ∀ p ∈ header.params, p.names ≠ [])
      (params : ∀ p ∈ header.params, Expr.WellFormed limit (levels + 1) p.type)
      (type : ∀ e ∈ header.type, Expr.WellFormed limit (levels + 1) e)
      (fieldNames : ∀ s ∈ fields, s.names ≠ [])
      (fieldTypes : ∀ s ∈ fields, Expr.WellFormed limit levels s.type)
      (each : ∀ d ∈ decls, Decl.WellFormed limit levels d) :
      Decl.WellFormed limit (levels + 1) (.recordType span header builder fields decls)
  | moduleBlock {levels span name params decls} (segments : name.segments ≠ [])
      (names : ∀ p ∈ params, p.names ≠ [])
      (types : ∀ p ∈ params, Expr.WellFormed limit (levels + 1) p.type)
      (each : ∀ d ∈ decls, Decl.WellFormed limit levels d) :
      Decl.WellFormed limit (levels + 1) (.moduleBlock span name params decls)
  | importModule {levels span kind name} (segments : name.segments ≠ []) :
      Decl.WellFormed limit levels (.importModule span kind name)
  | ascription {levels signature} (names : signature.names ≠ [])
      (type : Expr.WellFormed limit levels signature.type) :
      Decl.WellFormed limit levels (.ascription signature)
  | clause {levels span lhs withPatterns withExpr rhs locals}
      (head : lhs.leadsWithRecord = false)
      (left : Expr.WellFormed limit levels lhs)
      (patterns : ∀ e ∈ withPatterns, Expr.WellFormed limit levels e)
      (scrutinee : ∀ e ∈ withExpr, Expr.WellFormed limit levels e)
      (right : ∀ e ∈ rhs, Expr.WellFormed limit levels e)
      (defined : withExpr.isSome ∨ rhs.isSome)
      (room : locals ≠ [] → 0 < levels)
      (each : ∀ d ∈ locals, Decl.WellFormed limit (levels - 1) d) :
      Decl.WellFormed limit levels (.clause span [lhs] false withPatterns withExpr rhs locals)
  | fixity {levels span fixity operators} (precedence : fixity.precedence ≤ limit)
      (literal : fixity.precedence < UInt64.size) (operators_ne : operators ≠ []) :
      Decl.WellFormed limit levels (.fixity span fixity operators)

end

end Concrete

end Offside
