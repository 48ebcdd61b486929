-- SUMMARY: Parsing as a traversal that goes one level deeper in its state and comes back again.
import Offside.Parser.Decl
import Offside.Proofs.Report.Traversal

/-! # Parsing with a state

The productions are given the parsers for what nests one level deeper, `Inner`.
The same grammar can be read with one depth that goes up before an expression or
a block and down after it, and problems that are recorded as they are met.
However a production ends, the depth is then what it was, so all that is left of
it is the cursor and its problems: `Production.parses_walk`. -/

namespace Offside

namespace Parser

open Traversal (nested)

variable {α β : Type}

/-- What does not nest moves the cursor and records problems, at any depth. -/
instance : MonadLift Parser (Traversal Cursor) where
  monadLift p := fun s =>
    let (r, c) := p s.focus
    (r.result, { s with focus := c, diagnostics := s.diagnostics ++ r.diagnostics })

/-! ## Combinators -/

/-- Read `t` and then `w`, if `t` is there. -/
def walkOptional (t : Token) (w : Traversal Cursor α) : Traversal Cursor (Option α) := do
  if ← eat t then some <$> w else pure none

/-- Repeat `item` as long as `more` holds and tokens are read. -/
def walkWhile (more : Cursor → Bool) (item : Traversal Cursor α) :
    Traversal Cursor (List α) := fun s =>
  if more s.focus then
    match item s with
    | (.error d, s₁) => (.error d, s₁)
    | (.ok a, s₁) =>
      if s₁.focus.ahead.length < s.focus.ahead.length then
        let (result, s₂) := walkWhile more item s₁
        (result.map (a :: ·), s₂)
      else (.ok [a], s₁)
  else (.ok [], s)
  termination_by s => s.focus.ahead.length

/-- Read one item up to its end. What does not belong to it is recorded as a
problem and skipped. -/
def walkItem (w : Traversal Cursor α) : Traversal Cursor (Option α) := do
  match ← w.attempt with
  | .error d =>
    record [d]
    move Cursor.skipItem
    return none
  | .ok a =>
    if ← look atItemEnd then return some a
    else
      record [← look (·.unexpected "the end of the declaration")]
      move Cursor.skipItem
      return some a

/-- A block of items, one level deeper. -/
def walkBlock (limit : Nat) (w : Traversal Cursor α) : Traversal Cursor (List α) :=
  nested limit (·.current.span) do
    expect .blockStart "to open a block"
    let items ← walkWhile moreItems (do move Cursor.skipSeparators; walkItem w)
    move Cursor.skipSeparators
    if ← eat .blockEnd then return items.filterMap id
    else unexpected "the end of the block"

/-! ## Productions -/

/-- The productions that go one level deeper. -/
structure Calls where
  expr : Traversal Cursor Concrete.Expr
  decls : Traversal Cursor (List (Decl Concrete.Expr))
  constructors : Traversal Cursor (List (Signature Concrete.Expr))
  members : Traversal Cursor (List Member)

namespace Calls

variable (calls : Calls)

/-- `( names : type )`, or the same in braces. -/
def param : Traversal Cursor (Param Concrete.Expr) := do
  let opening ← advance
  let isImplicit : Bool := opening.token = .lbrace
  let names ← whileAt (!·.isAt .colon) (boundName "a parameter name")
  if names.isEmpty then failHere .namelessParam
  else
    let _ ← advance
    let type ← calls.expr
    if isImplicit then expect .rbrace "to close `\x7b`" else expect .rparen "to close `(`"
    return ⟨← spanFrom opening.span.start, isImplicit, names, type⟩

/-- One binding of a lambda or quantifier. -/
def binding (expected : String) : Traversal Cursor (Binding Concrete.Expr) := do
  if ← look atBracket then
    if ← look (·.atTypedParam) then .typed <$> calls.param
    else unexpected "a typed binding `(x : A)`"
  else .name <$> boundName expected

/-- One or more bindings and the arrow after them. -/
def bindings (expected : String) : Traversal Cursor (List (Binding Concrete.Expr)) := do
  let bindings ← walkWhile (!·.isAt .arrow) (calls.binding expected)
  if bindings.isEmpty then unexpected expected
  else
    let _ ← advance
    return bindings

/-- A binder, its bindings, an arrow and a body. -/
def bind (binder : Binder) (expected : String) : Traversal Cursor Concrete.Expr := do
  let keyword ← advance
  let bindings ← calls.bindings expected
  let body ← calls.expr
  return .bind (← spanFrom keyword.span.start) binder bindings body

/-- `let` declarations `in` body. -/
def letIn : Traversal Cursor Concrete.Expr := do
  let keyword ← advance
  let decls ← calls.decls
  expect .kwIn "after let bindings"
  let body ← calls.expr
  return .letIn (← spanFrom keyword.span.start) decls body

/-- `name = value` in a record value. -/
def assignment : Traversal Cursor (Assignment Concrete.Expr) := do
  let name ← name "a field name"
  expect .equals "after field name"
  let value ← calls.expr
  return ⟨← spanFrom name.span.start, name, value⟩

/-- The assignments of a record value, with semicolons between. -/
def assignments : Traversal Cursor (List (Assignment Concrete.Expr)) := do
  if ← look (·.isAt .rbrace) then return []
  else
    let first ← calls.assignment
    let others ← walkWhile (!·.isAt .rbrace) do
      expect .semicolon "between record fields"
      calls.assignment
    return first :: others

/-- A record value: `record P { x = a ; y = b }`. -/
def recordValue : Traversal Cursor Concrete.Atom := do
  let keyword ← advance
  let builder ←
    if ← look atIdent then some <$> qualifiedName "a record constructor" else pure none
  expect .lbrace "to start record fields"
  let fields ← calls.assignments
  let _ ← advance
  return .record (← spanFrom keyword.span.start) builder fields

/-- A parenthesis around an expression. -/
def paren : Traversal Cursor Concrete.Atom := do
  let opening ← advance
  let e ← calls.expr
  expect .rparen "to close `(`"
  return .paren (← spanFrom opening.span.start) e

/-- One atom of a run. -/
def atom : Traversal Cursor Concrete.Atom := do
  match ← look (·.token) with
  | .ident _ => return .leaf (.name (← qualifiedName "a name"))
  | .underscore => Inner.leaf .hole
  | .unit => Inner.leaf .unit
  | .kwType => Inner.leaf .type
  | .integer value => Inner.leaf (.integer · value)
  | .lparen => if ← look (·.atTypedParam) then .param <$> calls.param else calls.paren
  | .lbrace => .param <$> calls.param
  | .kwRecord => calls.recordValue
  | _ => unexpected "an expression"

/-- A run of atoms, with a lambda, quantifier or `let` at its end if there is
one. -/
def run : Traversal Cursor (List Concrete.Atom) := do
  let atoms ← walkWhile atAtom calls.atom
  let last ← if ← look atTail then (fun e => [.tail e]) <$> calls.expr else pure []
  let run := atoms ++ last
  if run.isEmpty then unexpected "an expression" else return run

/-- A run, or a run with an arrow and a codomain after it. -/
def runOrArrow : Traversal Cursor Concrete.Expr := do
  let start ← start
  let atoms ← calls.run
  if ← eat .arrow then
    let codomain ← calls.expr
    return .arrow (← spanFrom start) atoms codomain
  else return .run (← spanFrom start) atoms

/-- An expression at its own depth. -/
def expression : Traversal Cursor Concrete.Expr := do
  match ← look (·.token) with
  | .backslash => calls.bind .lambda "a lambda binding"
  | .kwForall => calls.bind .forallType "a forall binding"
  | .kwLet => calls.letIn
  | .arrow => failHere .missingDomain
  | _ => calls.runOrArrow

/-- The typed parameters of a header. -/
def params : Traversal Cursor (List (Param Concrete.Expr)) := walkWhile atBracket calls.param

/-- The header of a data or record type, after its keyword. -/
def header (expected : String) : Traversal Cursor (Header Concrete.Expr) := do
  let name ← name expected
  let params ← calls.params
  let type ← walkOptional .colon calls.expr
  return ⟨name, params, type⟩

/-- The names of a signature, a colon and a type. The span begins at `start`. -/
def signature (start : Nat) (expected context : String) :
    Traversal Cursor (Signature Concrete.Expr) := do
  let names ← names expected
  expect .colon context
  let type ← calls.expr
  return ⟨← spanFrom start, names, type⟩

/-- A data type, at its keyword. -/
def dataType : Traversal Cursor (Decl Concrete.Expr) := do
  let keyword ← advance
  let header ← calls.header "a name after `data`"
  if ← eat .kwWhere then
    let constructors ← calls.constructors
    return .dataType (← spanFrom keyword.span.start) header constructors
  else return .emptyData (← spanFrom keyword.span.start) header

/-- Constructors with their type. A bar may stand before them. -/
def constructorSignature : Traversal Cursor (Signature Concrete.Expr) := do
  let start ← start
  let _ ← eat .pipe
  calls.signature start "a constructor name" "after constructor names"

/-- A record type, at its keyword. -/
def recordType : Traversal Cursor (Decl Concrete.Expr) := do
  let keyword ← advance
  let header ← calls.header "a name after `record`"
  expect .kwWhere "after record header"
  let members ← calls.members
  let builders := members.filterMap fun | .builder name => some name | _ => none
  let fields := members.filterMap fun | .field signature => some signature | _ => none
  let decls := members.filterMap fun | .decl decl => some decl | _ => none
  record (builders.tail.map fun name => Problem.secondConstructor.at name.span)
  return .recordType (← spanFrom keyword.span.start) header builders.head? fields decls

/-- A module, at its keyword. -/
def moduleBlock : Traversal Cursor (Decl Concrete.Expr) := do
  let keyword ← advance
  let name ← qualifiedName "a module name"
  let params ← calls.params
  expect .kwWhere "after module header"
  let decls ← calls.decls
  return .moduleBlock (← spanFrom keyword.span.start) name params decls

/-- `f g : A`. -/
def ascription : Traversal Cursor (Decl Concrete.Expr) := do
  let start ← start
  .ascription <$> calls.signature start "a name in type signature" "after names in type signature"

/-- A defining clause. -/
def clause : Traversal Cursor (Decl Concrete.Expr) := do
  let start ← start
  let lhs ← calls.expr
  let withPatterns ← walkWhile (·.isAt .pipe) (do let _ ← advance; calls.expr)
  let withExpr ← walkOptional .kwWith calls.expr
  let rhs ← walkOptional .equals calls.expr
  if withExpr.isNone && rhs.isNone then unexpected "`=` or `with` after clause patterns"
  else
    let locals ← walkOptional .kwWhere calls.decls
    return .clause (← spanFrom start) [lhs] false withPatterns withExpr rhs (locals.getD [])

/-- A declaration without a keyword. -/
def signatureOrClause : Traversal Cursor (Decl Concrete.Expr) := do
  match ← look (·.firstInItem? [.colon, .equals, .kwWith, .pipe]) with
  | some .colon => calls.ascription
  | some _ => calls.clause
  | none => failHere (.neitherSignatureNorClause (← look (·.token)))

/-- A declaration. -/
def declaration (options : Options) : Traversal Cursor (Decl Concrete.Expr) := do
  match ← look (·.token) with
  | .kwData => calls.dataType
  | .kwRecord => calls.recordType
  | .kwModule => calls.moduleBlock
  | .kwImport | .kwOpen => importModule
  | .kwFixity assoc => fixityDeclaration options assoc
  | .kwField => failHere (.memberOutsideRecord .kwField)
  | .kwConstructor => failHere (.memberOutsideRecord .kwConstructor)
  | _ => calls.signatureOrClause

/-- A member of a record type. -/
def member (options : Options) : Traversal Cursor Member := do
  match ← look (·.token) with
  | .kwConstructor =>
    let _ ← advance
    .builder <$> name "a constructor name"
  | .kwField =>
    let keyword ← advance
    .field <$> calls.signature keyword.span.start "a field name" "after field names"
  | _ => .decl <$> calls.declaration options

end Calls

/-- The productions tied to each other, for calls that go at most `rounds` levels
deeper. The depth in the state stops them before that, if there are enough rounds:
`matches_calls`. -/
def calls (options : Options) : (rounds : Nat) → Calls
  | 0 =>
    let tooDeep := Problem.nestingTooDeep options.maxNesting
    ⟨liftM (failHere tooDeep : Parser _), liftM (failHere tooDeep : Parser _),
      liftM (failHere tooDeep : Parser _), liftM (failHere tooDeep : Parser _)⟩
  | rounds + 1 =>
    let next := calls options rounds
    { expr := nested options.maxNesting (·.current.span) next.expression
      decls := walkBlock options.maxNesting (next.declaration options)
      constructors := walkBlock options.maxNesting next.constructorSignature
      members := walkBlock options.maxNesting (next.member options) }

/-- The productions tied to each other once and for all. -/
def grammar (options : Options) : Calls := calls options options.maxNesting

/-! ## Reports -/

/-- A parser that goes one level deeper, when `levels` are left. -/
def deeper (limit levels : Nat) (body : Nat → Parser α) : Parser α :=
  match levels with
  | 0 => failHere (.nestingTooDeep limit)
  | levels + 1 => body levels

theorem inner_eq (options : Options) (levels : Nat) : inner options levels =
    { expr := deeper options.maxNesting levels fun levels => (inner options levels).expression
      decls := deeper options.maxNesting levels fun levels =>
        block ((inner options levels).declaration options)
      constructors := deeper options.maxNesting levels fun levels =>
        block (inner options levels).constructorSignature
      members := deeper options.maxNesting levels fun levels =>
        block ((inner options levels).member options) } := by
  cases levels <;> rfl

/-- A sequence reports what its parts report. -/
theorem bind_apply (p : Parser α) (q : α → Parser β) (c : Cursor) : (p >>= q) c =
    ((p c).1 >>= fun a => (q a (p c).2).1,
      match (p c).1.result with
      | .ok a => (q a (p c).2).2
      | .error _ => (p c).2) := by
  change p.andThen q c = _
  rw [andThen]
  rcases p c with ⟨⟨ds, result⟩, c₁⟩
  cases result <;> rfl

/-- Go on with how a parser ends, be it a value or a problem. -/
def attempt (p : Parser α) : Parser (Except Diagnostic α) := fun c => ((p c).1.defer, (p c).2)

/-- Record the problem of a parser that fails, and go on without its value. -/
def settle (p : Parser α) : Parser (Option α) := fun c => (.noted (p c).1.settle, (p c).2)

theorem attempt_bind_apply (p : Parser α) (q : Except Diagnostic α → Parser β) (c : Cursor) :
    (attempt p >>= q) c =
      (⟨(p c).1.diagnostics ++ (q (p c).1.result (p c).2).1.diagnostics,
        (q (p c).1.result (p c).2).1.result⟩, (q (p c).1.result (p c).2).2) := rfl

theorem settle_bind_apply (p : Parser α) (q : Option α → Parser β) (c : Cursor) :
    (settle p >>= q) c =
      (⟨(p c).1.settle.2 ++ (q (p c).1.settle.1 (p c).2).1.diagnostics,
        (q (p c).1.settle.1 (p c).2).1.result⟩, (q (p c).1.settle.1 (p c).2).2) := rfl

theorem look_bind_apply (f : Cursor → α) (q : α → Parser β) (c : Cursor) :
    (look f >>= q) c = q (f c) c := rfl

theorem item_eq (p : Parser α) : item p = do
    match ← attempt p with
    | .error d =>
      record [d]
      move Cursor.skipItem
      return none
    | .ok a =>
      if ← look atItemEnd then return some a
      else
        record [← look (·.unexpected "the end of the declaration")]
        move Cursor.skipItem
        return some a := by
  funext c
  rw [attempt_bind_apply, item]
  rcases p c with ⟨⟨ds, result⟩, c₁⟩
  cases result with
  | error d => rfl
  | ok a =>
    simp only [look_bind_apply]
    cases atItemEnd c₁ with
    | true => simp [Pure.pure]
    | false => rfl

/-- At `depth` the traversal does what the parser does, from every cursor. -/
def Parses (w : Traversal Cursor α) (depth : Nat) (p : Parser α) : Prop :=
  ∀ c, w.Reports depth c (p c).1 (p c).2

namespace Parses

variable {depth limit : Nat} {w : Traversal Cursor α} {p : Parser α} {more : Cursor → Bool}

theorem lift (p : Parser α) : Parses (liftM p) depth p := fun _ _ => rfl

theorem pure (a : α) : Parses (pure a) depth (pure a) := fun _ => .pure a

theorem bind {next : α → Traversal Cursor β} {q : α → Parser β} (h : Parses w depth p)
    (hnext : ∀ a, Parses (next a) depth (q a)) : Parses (w >>= next) depth (p >>= q) := by
  intro c
  rw [bind_apply]
  refine (h c).bind (fun a ha => ?_) (fun d hd => ?_)
  · simp only [ha]
    exact hnext a _
  · simp only [hd]

theorem map {f : α → β} (h : Parses w depth p) : Parses (f <$> w) depth (f <$> p) :=
  h.bind fun _ => .pure _

/-- One level deeper, and back. -/
theorem nested (body : Nat → Parser α) (h : Parses w (depth + 1) (body (limit - (depth + 1)))) :
    Parses (nested limit (·.current.span) w) depth (deeper limit (limit - depth) body) := by
  intro c
  by_cases hle : limit ≤ depth
  · rw [Nat.sub_eq_zero_of_le hle]
    exact .nested_stop hle
  · have hlevels : limit - depth = limit - (depth + 1) + 1 := by omega
    rw [hlevels]
    exact .nested_run (Nat.not_le.1 hle) (h c)

theorem optional {t : Token} (h : Parses w depth p) :
    Parses (walkOptional t w) depth (optional t p) := by
  refine (lift _).bind fun found => ?_
  cases found with
  | true => exact h.map
  | false => exact .pure _

theorem whileAt (h : Parses w depth p) : Parses (walkWhile more w) depth (whileAt more p) := by
  intro c
  induction hn : c.ahead.length using Nat.strongRecOn generalizing c with
  | _ n ih =>
    subst hn
    intro ds
    rw [walkWhile, Parser.whileAt, whileFrom]
    simp only [whileFrom_const]
    cases hmore : more c with
    | false => simp
    | true =>
      simp only [if_true, h c ds]
      rcases p c with ⟨⟨ds₁, result⟩, c₁⟩
      cases result with
      | error d => rfl
      | ok a =>
        by_cases hlt : c₁.ahead.length < c.ahead.length
        · simp only [if_pos hlt, ih _ hlt c₁ rfl _, List.append_assoc]
        · simp only [if_neg hlt]

theorem attempt (h : Parses w depth p) : Parses w.attempt depth (attempt p) := fun c =>
  (h c).attempt

theorem settle (h : Parses w depth p) : Parses w.settle depth (settle p) := fun c =>
  (h c).settle

/-- A problem in an item, or after it, is recorded before the rest is skipped. -/
theorem item (h : Parses w depth p) : Parses (walkItem w) depth (item p) := by
  rw [item_eq]
  refine h.attempt.bind fun result => ?_
  cases result with
  | error d =>
    refine (lift _).bind fun _ => ?_
    exact (lift _).bind fun _ => .pure _
  | ok a =>
    refine (lift _).bind fun atEnd => ?_
    cases atEnd with
    | true => exact .pure _
    | false =>
      refine (lift _).bind fun d => ?_
      refine (lift _).bind fun _ => ?_
      exact (lift _).bind fun _ => .pure _

theorem block (body : Nat → Parser α) (h : Parses w (depth + 1) (body (limit - (depth + 1)))) :
    Parses (walkBlock limit w) depth
      (deeper limit (limit - depth) fun levels => block (body levels)) := by
  refine .nested (fun levels => Parser.block (body levels)) ?_
  refine (lift _).bind fun _ => ?_
  refine (whileAt ((lift _).bind fun _ => h.item)).bind fun items => ?_
  refine (lift _).bind fun _ => ?_
  refine (lift _).bind fun closed => ?_
  cases closed with
  | true => exact .pure _
  | false => exact .lift _

end Parses

/-- At `depth` every call does what `inner` does. -/
structure Calls.Matches (calls : Calls) (depth : Nat) (inner : Inner) : Prop where
  expr : Parses calls.expr depth inner.expr
  decls : Parses calls.decls depth inner.decls
  constructors : Parses calls.constructors depth inner.constructors
  members : Parses calls.members depth inner.members

section

variable {calls : Calls} {inner : Inner} {depth : Nat} (h : calls.Matches depth inner)

include h

theorem parses_param : Parses calls.param depth inner.param := by
  unfold Calls.param Inner.param
  refine (Parses.lift _).bind fun opening => ?_
  refine (Parses.lift _).bind fun names => ?_
  split
  · exact .lift _
  · refine (Parses.lift _).bind fun _ => ?_
    refine h.expr.bind fun type => ?_
    dsimp only
    split <;> exact (Parses.lift _).bind fun _ => (Parses.lift _).bind fun _ => .pure _

theorem parses_binding (expected : String) :
    Parses (calls.binding expected) depth (inner.binding expected) := by
  refine (Parses.lift _).bind fun bracket => ?_
  cases bracket with
  | true =>
    refine (Parses.lift _).bind fun typed => ?_
    cases typed with
    | true => exact (parses_param h).map
    | false => exact .lift _
  | false => exact (Parses.lift _).map

theorem parses_bindings (expected : String) :
    Parses (calls.bindings expected) depth (inner.bindings expected) := by
  refine (parses_binding h expected).whileAt.bind fun bindings => ?_
  split
  · exact .lift _
  · exact (Parses.lift _).bind fun _ => .pure _

theorem parses_bind (binder : Binder) (expected : String) :
    Parses (calls.bind binder expected) depth (inner.bind binder expected) := by
  refine (Parses.lift _).bind fun keyword => ?_
  refine (parses_bindings h expected).bind fun bindings => ?_
  refine h.expr.bind fun body => ?_
  exact (Parses.lift _).bind fun _ => .pure _

theorem parses_letIn : Parses calls.letIn depth inner.letIn := by
  refine (Parses.lift _).bind fun keyword => ?_
  refine h.decls.bind fun decls => ?_
  refine (Parses.lift _).bind fun _ => ?_
  refine h.expr.bind fun body => ?_
  exact (Parses.lift _).bind fun _ => .pure _

theorem parses_assignment : Parses calls.assignment depth inner.assignment := by
  refine (Parses.lift _).bind fun name => ?_
  refine (Parses.lift _).bind fun _ => ?_
  refine h.expr.bind fun value => ?_
  exact (Parses.lift _).bind fun _ => .pure _

theorem parses_assignments : Parses calls.assignments depth inner.assignments := by
  refine (Parses.lift _).bind fun closed => ?_
  cases closed with
  | true => exact .pure _
  | false =>
    refine (parses_assignment h).bind fun first => ?_
    exact (Parses.whileAt ((Parses.lift _).bind fun _ => parses_assignment h)).bind fun _ => .pure _

theorem parses_recordValue : Parses calls.recordValue depth inner.recordValue := by
  refine (Parses.lift _).bind fun keyword => ?_
  have hfields : ∀ builder, Parses (do
      expect .lbrace "to start record fields"
      let fields ← calls.assignments
      let _ ← advance
      return Concrete.Atom.record (← spanFrom keyword.span.start) builder fields) depth (do
      expect .lbrace "to start record fields"
      let fields ← inner.assignments
      let _ ← advance
      return .record (← spanFrom keyword.span.start) builder fields) := fun builder => by
    refine (Parses.lift _).bind fun _ => ?_
    refine (parses_assignments h).bind fun fields => ?_
    refine (Parses.lift _).bind fun _ => ?_
    exact (Parses.lift _).bind fun _ => .pure _
  refine (Parses.lift _).bind fun named => ?_
  cases named with
  | true => exact (Parses.map (.lift _)).bind hfields
  | false => exact (Parses.pure _).bind hfields

theorem parses_paren : Parses calls.paren depth inner.paren := by
  refine (Parses.lift _).bind fun opening => ?_
  refine h.expr.bind fun e => ?_
  refine (Parses.lift _).bind fun _ => ?_
  exact (Parses.lift _).bind fun _ => .pure _

theorem parses_atom : Parses calls.atom depth inner.atom := by
  refine (Parses.lift _).bind fun token => ?_
  cases token with
  | ident _ => exact (Parses.lift _).bind fun _ => .pure _
  | lparen =>
    refine (Parses.lift _).bind fun typed => ?_
    cases typed with
    | true => exact (parses_param h).map
    | false => exact parses_paren h
  | lbrace => exact (parses_param h).map
  | kwRecord => exact parses_recordValue h
  | _ => exact .lift _

theorem parses_run : Parses calls.run depth inner.run := by
  refine (parses_atom h).whileAt.bind fun atoms => ?_
  have hend : ∀ last : List Concrete.Atom, Parses
      (if (atoms ++ last).isEmpty then unexpected "an expression" else return atoms ++ last) depth
      (if (atoms ++ last).isEmpty then unexpected "an expression" else return atoms ++ last) :=
    fun last => by
    split
    · exact .lift _
    · exact .pure _
  refine (Parses.lift _).bind fun tail => ?_
  cases tail with
  | true => exact h.expr.map.bind hend
  | false => exact (Parses.pure _).bind hend

theorem parses_runOrArrow : Parses calls.runOrArrow depth inner.runOrArrow := by
  refine (Parses.lift _).bind fun start => ?_
  refine (parses_run h).bind fun atoms => ?_
  refine (Parses.lift _).bind fun arrow => ?_
  cases arrow with
  | true =>
    refine h.expr.bind fun codomain => ?_
    exact (Parses.lift _).bind fun _ => .pure _
  | false => exact (Parses.lift _).bind fun _ => .pure _

theorem parses_expression : Parses calls.expression depth inner.expression := by
  refine (Parses.lift _).bind fun token => ?_
  cases token with
  | backslash => exact parses_bind h _ _
  | kwForall => exact parses_bind h _ _
  | kwLet => exact parses_letIn h
  | arrow => exact .lift _
  | _ => exact parses_runOrArrow h

theorem parses_params : Parses calls.params depth inner.params := (parses_param h).whileAt

theorem parses_header (expected : String) :
    Parses (calls.header expected) depth (inner.header expected) := by
  refine (Parses.lift _).bind fun name => ?_
  refine (parses_params h).bind fun params => ?_
  exact h.expr.optional.bind fun _ => .pure _

theorem parses_signature (start : Nat) (expected context : String) :
    Parses (calls.signature start expected context) depth
      (inner.signature start expected context) := by
  refine (Parses.lift _).bind fun names => ?_
  refine (Parses.lift _).bind fun _ => ?_
  refine h.expr.bind fun type => ?_
  exact (Parses.lift _).bind fun _ => .pure _

theorem parses_dataType : Parses calls.dataType depth inner.dataType := by
  refine (Parses.lift _).bind fun keyword => ?_
  refine (parses_header h _).bind fun header => ?_
  refine (Parses.lift _).bind fun found => ?_
  cases found with
  | true =>
    refine h.constructors.bind fun constructors => ?_
    exact (Parses.lift _).bind fun _ => .pure _
  | false => exact (Parses.lift _).bind fun _ => .pure _

theorem parses_constructorSignature :
    Parses calls.constructorSignature depth inner.constructorSignature := by
  refine (Parses.lift _).bind fun start => ?_
  exact (Parses.lift _).bind fun _ => parses_signature h _ _ _

theorem parses_recordType : Parses calls.recordType depth inner.recordType := by
  refine (Parses.lift _).bind fun keyword => ?_
  refine (parses_header h _).bind fun header => ?_
  refine (Parses.lift _).bind fun _ => ?_
  refine h.members.bind fun members => ?_
  refine (Parses.lift _).bind fun _ => ?_
  exact (Parses.lift _).bind fun _ => .pure _

theorem parses_moduleBlock : Parses calls.moduleBlock depth inner.moduleBlock := by
  refine (Parses.lift _).bind fun keyword => ?_
  refine (Parses.lift _).bind fun name => ?_
  refine (parses_params h).bind fun params => ?_
  refine (Parses.lift _).bind fun _ => ?_
  refine h.decls.bind fun decls => ?_
  exact (Parses.lift _).bind fun _ => .pure _

theorem parses_ascription : Parses calls.ascription depth inner.ascription :=
  (Parses.lift _).bind fun _ => (parses_signature h _ _ _).map

theorem parses_clause : Parses calls.clause depth inner.clause := by
  refine (Parses.lift _).bind fun start => ?_
  refine h.expr.bind fun lhs => ?_
  refine (Parses.whileAt ((Parses.lift _).bind fun _ => h.expr)).bind fun withPatterns => ?_
  refine h.expr.optional.bind fun withExpr => ?_
  refine h.expr.optional.bind fun rhs => ?_
  split
  · exact .lift _
  · refine h.decls.optional.bind fun locals => ?_
    exact (Parses.lift _).bind fun _ => .pure _

theorem parses_signatureOrClause :
    Parses calls.signatureOrClause depth inner.signatureOrClause := by
  refine (Parses.lift _).bind fun first => ?_
  cases first with
  | none => exact (Parses.lift _).bind fun _ => .lift _
  | some token =>
    cases token with
    | colon => exact parses_ascription h
    | _ => exact parses_clause h

theorem parses_declaration (options : Options) :
    Parses (calls.declaration options) depth (inner.declaration options) := by
  refine (Parses.lift _).bind fun token => ?_
  cases token with
  | kwData => exact parses_dataType h
  | kwRecord => exact parses_recordType h
  | kwModule => exact parses_moduleBlock h
  | kwImport | kwOpen | kwFixity _ | kwField | kwConstructor => exact .lift _
  | _ => exact parses_signatureOrClause h

theorem parses_member (options : Options) :
    Parses (calls.member options) depth (inner.member options) := by
  refine (Parses.lift _).bind fun token => ?_
  cases token with
  | kwConstructor => exact (Parses.lift _).bind fun _ => (Parses.lift _).map
  | kwField => exact (Parses.lift _).bind fun _ => (parses_signature h _ _ _).map
  | _ => exact (parses_declaration h options).map

end

/-- With as many rounds as there are levels left, the calls do what the parsers
for these levels do. -/
theorem matches_calls (options : Options) {rounds depth : Nat}
    (hrounds : options.maxNesting ≤ depth + rounds) :
    (calls options rounds).Matches depth (inner options (options.maxNesting - depth)) := by
  induction rounds generalizing depth with
  | zero =>
    rw [Nat.sub_eq_zero_of_le (by omega)]
    exact ⟨.lift _, .lift _, .lift _, .lift _⟩
  | succ rounds ih =>
    -- One level deeper there is one round less, and one level less to go.
    have hnext := @ih (depth + 1) (by omega)
    rw [inner_eq]
    exact ⟨.nested (fun levels => (inner options levels).expression) (parses_expression hnext),
      .block (fun levels => (inner options levels).declaration options)
        (parses_declaration hnext options),
      .block (fun levels => (inner options levels).constructorSignature)
        (parses_constructorSignature hnext),
      .block (fun levels => (inner options levels).member options) (parses_member hnext options)⟩

/-! ## The whole grammar -/

/-- A file: its declarations, and nothing after them. -/
def walkFile (decls : Traversal Cursor (List (Decl Concrete.Expr))) :
    Traversal Cursor (List (Decl Concrete.Expr)) := do
  let decls ← decls.settle
  if ← look (·.isAt .eof) then return decls.getD []
  else
    record [← look (·.unexpected "end of file")]
    return decls.getD []

/-- The same of a parser. -/
def fileWith (decls : Parser (List (Decl Concrete.Expr))) : Parser (List (Decl Concrete.Expr)) := do
  let decls ← settle decls
  if ← look (·.isAt .eof) then return decls.getD []
  else
    record [← look (·.unexpected "end of file")]
    return decls.getD []

theorem parses_walkFile {w : Traversal Cursor (List (Decl Concrete.Expr))} {depth : Nat}
    {p : Parser (List (Decl Concrete.Expr))} (h : Parses w depth p) :
    Parses (walkFile w) depth (fileWith p) := by
  refine h.settle.bind fun decls => ?_
  refine (Parses.lift _).bind fun ended => ?_
  cases ended with
  | true => exact .pure _
  | false =>
    refine (Parses.lift _).bind fun d => ?_
    exact (Parses.lift _).bind fun _ => .pure _

/-- The productions of the grammar, with what they give. -/
inductive Production : Type → Type 1
  | file : Production (List (Decl Concrete.Expr))
  | block {α : Type} (item : Production α) : Production (List α)
  | declaration : Production (Decl Concrete.Expr)
  | dataType : Production (Decl Concrete.Expr)
  | constructorSignature : Production (Signature Concrete.Expr)
  | recordType : Production (Decl Concrete.Expr)
  | member : Production Member
  | moduleBlock : Production (Decl Concrete.Expr)
  | importModule : Production (Decl Concrete.Expr)
  | fixityDeclaration (assoc : Associativity) : Production (Decl Concrete.Expr)
  | signatureOrClause : Production (Decl Concrete.Expr)
  | ascription : Production (Decl Concrete.Expr)
  | clause : Production (Decl Concrete.Expr)
  | header (expected : String) : Production (Header Concrete.Expr)
  | signature (start : Nat) (expected context : String) : Production (Signature Concrete.Expr)
  | params : Production (List (Param Concrete.Expr))
  | param : Production (Param Concrete.Expr)
  | expr : Production Concrete.Expr
  | expression : Production Concrete.Expr
  | bind (binder : Binder) (expected : String) : Production Concrete.Expr
  | bindings (expected : String) : Production (List (Binding Concrete.Expr))
  | binding (expected : String) : Production (Binding Concrete.Expr)
  | letIn : Production Concrete.Expr
  | runOrArrow : Production Concrete.Expr
  | run : Production (List Concrete.Atom)
  | atom : Production Concrete.Atom
  | paren : Production Concrete.Atom
  | recordValue : Production Concrete.Atom
  | assignments : Production (List (Assignment Concrete.Expr))
  | assignment : Production (Assignment Concrete.Expr)
  | qualifiedName (expected : String) : Production QualifiedName
  | names (expected : String) : Production (List Name)
  | boundName (expected : String) : Production Name
  | name (expected : String) : Production Name

namespace Production

/-- Read a production at the depth of the state. -/
def walk (options : Options) : {α : Type} → Production α → Traversal Cursor α
  | _, file => walkFile (grammar options).decls
  | _, block item => walkBlock options.maxNesting (item.walk options)
  | _, declaration => (grammar options).declaration options
  | _, dataType => (grammar options).dataType
  | _, constructorSignature => (grammar options).constructorSignature
  | _, recordType => (grammar options).recordType
  | _, member => (grammar options).member options
  | _, moduleBlock => (grammar options).moduleBlock
  | _, importModule => liftM Parser.importModule
  | _, fixityDeclaration assoc => liftM (Parser.fixityDeclaration options assoc)
  | _, signatureOrClause => (grammar options).signatureOrClause
  | _, ascription => (grammar options).ascription
  | _, clause => (grammar options).clause
  | _, header expected => (grammar options).header expected
  | _, signature start expected context => (grammar options).signature start expected context
  | _, params => (grammar options).params
  | _, param => (grammar options).param
  | _, expr => (grammar options).expr
  | _, expression => (grammar options).expression
  | _, bind binder expected => (grammar options).bind binder expected
  | _, bindings expected => (grammar options).bindings expected
  | _, binding expected => (grammar options).binding expected
  | _, letIn => (grammar options).letIn
  | _, runOrArrow => (grammar options).runOrArrow
  | _, run => (grammar options).run
  | _, atom => (grammar options).atom
  | _, paren => (grammar options).paren
  | _, recordValue => (grammar options).recordValue
  | _, assignments => (grammar options).assignments
  | _, assignment => (grammar options).assignment
  | _, qualifiedName expected => liftM (Parser.qualifiedName expected)
  | _, names expected => liftM (Parser.names expected)
  | _, boundName expected => liftM (Parser.boundName expected)
  | _, name expected => liftM (Parser.name expected)

/-- The parser for a production when `levels` are left. -/
def parser (options : Options) : {α : Type} → Nat → Production α → Parser α
  | _, levels, file => fileWith (inner options levels).decls
  | _, levels, block item =>
    deeper options.maxNesting levels fun levels => Parser.block (item.parser options levels)
  | _, levels, declaration => (inner options levels).declaration options
  | _, levels, dataType => (inner options levels).dataType
  | _, levels, constructorSignature => (inner options levels).constructorSignature
  | _, levels, recordType => (inner options levels).recordType
  | _, levels, member => (inner options levels).member options
  | _, levels, moduleBlock => (inner options levels).moduleBlock
  | _, _, importModule => Parser.importModule
  | _, _, fixityDeclaration assoc => Parser.fixityDeclaration options assoc
  | _, levels, signatureOrClause => (inner options levels).signatureOrClause
  | _, levels, ascription => (inner options levels).ascription
  | _, levels, clause => (inner options levels).clause
  | _, levels, header expected => (inner options levels).header expected
  | _, levels, signature start expected context => (inner options levels).signature start expected context
  | _, levels, params => (inner options levels).params
  | _, levels, param => (inner options levels).param
  | _, levels, expr => (inner options levels).expr
  | _, levels, expression => (inner options levels).expression
  | _, levels, bind binder expected => (inner options levels).bind binder expected
  | _, levels, bindings expected => (inner options levels).bindings expected
  | _, levels, binding expected => (inner options levels).binding expected
  | _, levels, letIn => (inner options levels).letIn
  | _, levels, runOrArrow => (inner options levels).runOrArrow
  | _, levels, run => (inner options levels).run
  | _, levels, atom => (inner options levels).atom
  | _, levels, paren => (inner options levels).paren
  | _, levels, recordValue => (inner options levels).recordValue
  | _, levels, assignments => (inner options levels).assignments
  | _, levels, assignment => (inner options levels).assignment
  | _, _, qualifiedName expected => Parser.qualifiedName expected
  | _, _, names expected => Parser.names expected
  | _, _, boundName expected => Parser.boundName expected
  | _, _, name expected => Parser.name expected

theorem parses_walk (options : Options) {α : Type} (production : Production α) (depth : Nat) :
    Parses (production.walk options) depth
      (production.parser options (options.maxNesting - depth)) := by
  have h := matches_calls options (Nat.le_add_left options.maxNesting depth)
  induction production generalizing depth with
  | file => exact parses_walkFile h.decls
  | block item ih => exact .block (fun levels => item.parser options levels) (ih _ (matches_calls options (Nat.le_add_left _ _)))
  | declaration => exact parses_declaration h options
  | dataType => exact parses_dataType h
  | constructorSignature => exact parses_constructorSignature h
  | recordType => exact parses_recordType h
  | member => exact parses_member h options
  | moduleBlock => exact parses_moduleBlock h
  | importModule => exact .lift _
  | fixityDeclaration assoc => exact .lift _
  | signatureOrClause => exact parses_signatureOrClause h
  | ascription => exact parses_ascription h
  | clause => exact parses_clause h
  | header expected => exact parses_header h expected
  | signature start expected context => exact parses_signature h start expected context
  | params => exact parses_params h
  | param => exact parses_param h
  | expr => exact h.expr
  | expression => exact parses_expression h
  | bind binder expected => exact parses_bind h binder expected
  | bindings expected => exact parses_bindings h expected
  | binding expected => exact parses_binding h expected
  | letIn => exact parses_letIn h
  | runOrArrow => exact parses_runOrArrow h
  | run => exact parses_run h
  | atom => exact parses_atom h
  | paren => exact parses_paren h
  | recordValue => exact parses_recordValue h
  | assignments => exact parses_assignments h
  | assignment => exact parses_assignment h
  | qualifiedName expected => exact .lift _
  | names expected => exact .lift _
  | boundName expected => exact .lift _
  | name expected => exact .lift _

/-- With all levels left, the report on a file is what `Parser.file` gives. -/
theorem parser_file (options : Options) (c : Cursor) :
    (file.parser options options.maxNesting c).1 = .noted (Parser.file options c) := by
  rw [parser, fileWith, settle_bind_apply, Parser.file]
  rcases (inner options options.maxNesting).decls c with ⟨r, c₁⟩
  simp only [look_bind_apply]
  cases c₁.isAt .eof <;> rfl

end Production

end Parser

end Offside
