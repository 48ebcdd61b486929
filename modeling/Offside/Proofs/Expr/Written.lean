-- SUMMARY: Expressions, declarations and files with operators resolved, written as tokens.
import Offside.Expr
import Offside.Proofs.Concrete.Written

/-! # Written trees with operators resolved

The writing goes from left to right. An operator stands between its operands,
also where a clause defines one, and parentheses stand where the tree has
them. -/

namespace Offside

/-- The left-hand side of a clause. An operator stands between its patterns. -/
def leftTokens (isOperator : Bool) (patterns : List (List Token)) : List Token :=
  match isOperator, patterns with
  | true, [operator, left, right] => left ++ operator ++ right
  | _, patterns => patterns.flatten

mutual

/-- An expression in writing. The blocks of its `let` forms are in style `s`. -/
def Expr.tokens (s : Style) : Expr → List Token
  | .leaf l => l.tokens
  | .paren _ e => .lparen :: e.tokens s ++ [.rparen]
  | .record _ builder fields =>
    .kwRecord :: (builder.map (·.tokens)).getD [] ++
      .lbrace :: [Token.semicolon].intercalate (writeAssignments s fields) ++ [.rbrace]
  | .arrow _ domain codomain => domain.tokens s ++ .arrow :: codomain.tokens s
  | .pi _ params codomain => writeParams s params ++ .arrow :: codomain.tokens s
  | .bind _ binder bindings body =>
    binder.token :: writeBindings s bindings ++ .arrow :: body.tokens s
  | .letIn _ decls body => .kwLet :: s.block (writeDecls s s decls) ++ .kwIn :: body.tokens s
  | .app _ fn arg => fn.tokens s ++ arg.tokens s
  | .operation _ operator left right => left.tokens s ++ operator.token :: right.tokens s

/-- Each of the assignments of a record value. -/
def writeAssignments (s : Style) : List (Assignment Expr) → List (List Token)
  | [] => []
  | ⟨_, name, value⟩ :: fields =>
    (name.token :: .equals :: value.tokens s) :: writeAssignments s fields

/-- A typed parameter in its brackets. -/
def writeParam (s : Style) : Param Expr → List Token
  | ⟨_, isImplicit, names, type⟩ =>
    (if isImplicit then .lbrace else .lparen) :: names.map Name.boundToken ++
      .colon :: type.tokens s ++ [if isImplicit then .rbrace else .rparen]

/-- Some typed parameters. -/
def writeParams (s : Style) : List (Param Expr) → List Token
  | [] => []
  | p :: ps => writeParam s p ++ writeParams s ps

/-- The bindings of a lambda or quantifier. -/
def writeBindings (s : Style) : List (Binding Expr) → List Token
  | [] => []
  | .name n :: bs => n.boundToken :: writeBindings s bs
  | .typed p :: bs => writeParam s p ++ writeBindings s bs

/-- An expression after `before`, if there is one. -/
def writeOption (s : Style) (before : Token) : Option Expr → List Token
  | none => []
  | some e => before :: e.tokens s

/-- Each of some expressions. -/
def writeExprs (s : Style) : List Expr → List (List Token)
  | [] => []
  | e :: es => e.tokens s :: writeExprs s es

/-- Each of some constructors, fields or ascriptions. -/
def writeSignatures (s : Style) : List (Signature Expr) → List (List Token)
  | [] => []
  | ⟨_, names, type⟩ :: ss =>
    (names.map Name.token ++ .colon :: type.tokens s) :: writeSignatures s ss

/-- The header of a data or record type. -/
def writeHeader (s : Style) : Header Expr → List Token
  | ⟨name, params, type⟩ => name.token :: writeParams s params ++ writeOption s .colon type

/-- A declaration in writing. Its own blocks are in style `outer`, those of the
`let` forms in it in style `s`. The block of a clause is left out if it is
empty. -/
def writeDecl (outer s : Style) : Decl Expr → List Token
  | .dataType _ header constructors =>
    .kwData :: writeHeader s header ++ .kwWhere :: outer.block (writeSignatures s constructors)
  | .emptyData _ header => .kwData :: writeHeader s header
  | .recordType _ header builder fields decls =>
    .kwRecord :: writeHeader s header ++ .kwWhere ::
      outer.block (outer.arrange
        (builder.toList.map (fun n => (n.span.start, [.kwConstructor, n.token])) ++
          (fields.map (·.span.start)).zip ((writeSignatures s fields).map (.kwField :: ·)) ++
          (decls.map (·.span.start)).zip (writeDecls outer s decls)))
  | .moduleBlock _ name params decls =>
    .kwModule :: name.tokens ++ writeParams s params ++ .kwWhere ::
      outer.block (writeDecls outer s decls)
  | .importModule _ kind name => kind.tokens ++ name.tokens
  | .ascription ⟨_, names, type⟩ => names.map Name.token ++ .colon :: type.tokens s
  | .clause _ patterns isOperator withPatterns withExpr rhs locals =>
    leftTokens isOperator (writeExprs s patterns) ++
      ((writeExprs s withPatterns).map (.pipe :: ·)).flatten ++
      writeOption s .kwWith withExpr ++ writeOption s .equals rhs ++
      if locals.isEmpty then [] else .kwWhere :: outer.block (writeDecls outer s locals)
  | .fixity _ fixity operators =>
    .kwFixity fixity.assoc :: .integer (.ofNat fixity.precedence) :: operators.map Name.token

/-- Each of some declarations. -/
def writeDecls (outer s : Style) : List (Decl Expr) → List (List Token)
  | [] => []
  | d :: ds => writeDecl outer s d :: writeDecls outer s ds

end

/-- A file in writing: the declarations of its block. -/
def File.tokens (outer s : Style) (file : File) : List Token :=
  outer.block (writeDecls outer s file.decls)

/-! ## Lists of parts -/

section

variable (outer s : Style)

theorem writeAssignments_eq (fs : List (Assignment Expr)) :
    writeAssignments s fs = fs.map fun f => f.name.token :: .equals :: f.value.tokens s := by
  induction fs with
  | nil => rfl
  | cons f fs ih => rw [writeAssignments, ih, List.map_cons]

theorem writeParam_eq (p : Param Expr) :
    writeParam s p = (if p.isImplicit then .lbrace else .lparen) :: p.names.map Name.boundToken ++
      .colon :: p.type.tokens s ++ [if p.isImplicit then .rbrace else .rparen] := by
  cases p
  rw [writeParam]

theorem writeParams_eq (ps : List (Param Expr)) : writeParams s ps = ps.flatMap (writeParam s) := by
  induction ps with
  | nil => rfl
  | cons p ps ih => rw [writeParams, ih, List.flatMap_cons]

/-- One binding in writing. -/
def writeBinding : Binding Expr → List Token
  | .name n => [n.boundToken]
  | .typed p => writeParam s p

theorem writeBindings_eq (bs : List (Binding Expr)) :
    writeBindings s bs = bs.flatMap (writeBinding s) := by
  induction bs with
  | nil => rfl
  | cons b bs ih =>
    rw [List.flatMap_cons, ← ih]
    cases b <;> rfl

/-- A constructor, field or ascription in writing. -/
def writeSignature (g : Signature Expr) : List Token :=
  g.names.map Name.token ++ .colon :: g.type.tokens s

theorem writeSignatures_eq (gs : List (Signature Expr)) :
    writeSignatures s gs = gs.map (writeSignature s) := by
  induction gs with
  | nil => rfl
  | cons g gs ih => rw [writeSignatures, ih, List.map_cons, writeSignature]

theorem writeHeader_eq (h : Header Expr) :
    writeHeader s h = h.name.token :: h.params.flatMap (writeParam s) ++ writeOption s .colon h.type := by
  cases h
  rw [writeHeader, writeParams_eq]

theorem writeDecls_eq (ds : List (Decl Expr)) :
    writeDecls outer s ds = ds.map (writeDecl outer s) := by
  induction ds with
  | nil => rfl
  | cons d ds ih => rw [writeDecls, ih, List.map_cons]

theorem writeDecl_ascription (g : Signature Expr) :
    writeDecl outer s (.ascription g) = writeSignature s g := by
  cases g
  rw [writeDecl, writeSignature]

/-- The members of a record type in writing, each with the offset at which it
starts: the constructor, the fields and the declarations. -/
def writeMembers (builder : Option Name) (fields : List (Signature Expr))
    (decls : List (Decl Expr)) : List (Nat × List Token) :=
  builder.toList.map (fun n => (n.span.start, [.kwConstructor, n.token])) ++
    fields.map (fun g => (g.span.start, .kwField :: writeSignature s g)) ++
    decls.map fun d => (d.span.start, writeDecl outer s d)

theorem writeDecl_recordType (span : Span) (header : Header Expr) (builder : Option Name)
    (fields : List (Signature Expr)) (decls : List (Decl Expr)) :
    writeDecl outer s (.recordType span header builder fields decls) =
      .kwRecord :: writeHeader s header ++ .kwWhere ::
        outer.block (outer.arrange (writeMembers outer s builder fields decls)) := by
  rw [writeDecl, writeSignatures_eq, writeDecls_eq, List.map_map, List.zip_map', List.zip_map']
  rfl

theorem writeExprs_eq (es : List Expr) : writeExprs s es = es.map (Expr.tokens s) := by
  induction es with
  | nil => rfl
  | cons e es ih => rw [writeExprs, ih, List.map_cons]

/-- The head of an application and its arguments, side by side. -/
theorem spine_tokens (e : Expr) : (e.spine.map (Expr.tokens s)).flatten = e.tokens s := by
  fun_induction Expr.spine e with
  | case1 _ fn arg ih => simp [ih, Expr.tokens]
  | case2 e => simp

/-- The left-hand side that a pattern is taken apart into reads as the pattern. -/
theorem leftTokens_spine (e : Expr) :
    leftTokens false (e.spine.map (Expr.tokens s)) = e.tokens s := by
  rw [leftTokens, spine_tokens]
  simp

end

end Offside
