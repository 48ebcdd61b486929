-- SUMMARY: Trees whose spans are stretches of a text, nested like the tree and in the order of the text.
import Mathlib.Data.List.Basic
import Offside.Concrete

/-! # Spans of trees

`Span.Lies` says that a span is a stretch of a text inside another one. A node
lies in a span if its own span does and its parts lie in it. Parts of which
there may be many stand one after another, and so do the parts of an application
and of the use of an operator. What lies in a span is said once for the shapes
of declarations, whatever their expressions are. -/

namespace Offside

/-- An offset between two characters of a text, or at one of its ends. -/
def Text.IsBoundary (source : String) (offset : Nat) : Prop :=
  (before? source.toList offset).isSome = true

namespace Span

/-- A stretch of `source` inside `outer`: its ends are in order and between
characters. -/
structure Lies (source : String) (span outer : Span) : Prop where
  le : span.start ≤ span.stop
  bounded : span.stop ≤ source.utf8ByteSize
  start : Text.IsBoundary source span.start
  stop : Text.IsBoundary source span.stop
  inside : outer.contains span = true

/-- Spans one after another. -/
def Ordered (spans : List Span) : Prop := spans.Pairwise fun a b => a.stop ≤ b.start

end Span

/-- A name lies where its span does. -/
abbrev Name.Lies (source : String) (n : Name) (outer : Span) : Prop := n.span.Lies source outer

/-- A name with its segments inside. -/
structure QualifiedName.Lies (source : String) (q : QualifiedName) (outer : Span) : Prop where
  lies : q.span.Lies source outer
  parts : ∀ n ∈ q.segments, n.Lies source q.span

/-- A leaf is a name, or nothing but its span. -/
inductive Leaf.Lies (source : String) : Leaf → Span → Prop
  | name {q outer} (lies : q.Lies source outer) : Leaf.Lies source (.name q) outer
  | other {l outer} (isOther : ∀ q, l ≠ .name q) (lies : l.span.Lies source outer) :
      Leaf.Lies source l outer

/-! ## Declarations and their parts -/

section

variable {ε : Type} (source : String) (E : ε → Span → Prop)

/-- A typed parameter with its names and its type inside. -/
inductive Param.Lies : Param ε → Span → Prop
  | mk {span isImplicit names type outer} (lies : span.Lies source outer)
      (subjects : ∀ n ∈ names, n.Lies source span) (typing : E type span) :
      Param.Lies ⟨span, isImplicit, names, type⟩ outer

/-- A binding is a name or a typed parameter. -/
inductive Binding.Lies : Binding ε → Span → Prop
  | name {n outer} (lies : n.Lies source outer) : Binding.Lies (.name n) outer
  | typed {p outer} (lies : p.Lies source E outer) : Binding.Lies (.typed p) outer

/-- A field of a record value with its name and its value inside. -/
inductive Assignment.Lies : Assignment ε → Span → Prop
  | mk {span name value outer} (lies : span.Lies source outer)
      (subject : name.Lies source span) (content : E value span) :
      Assignment.Lies ⟨span, name, value⟩ outer

/-- A signature with its names and its type inside. -/
inductive Signature.Lies : Signature ε → Span → Prop
  | mk {span names type outer} (lies : span.Lies source outer)
      (subjects : ∀ n ∈ names, n.Lies source span) (typing : E type span) :
      Signature.Lies ⟨span, names, type⟩ outer

/-- The parts of a header, which has no span of its own. -/
inductive Header.Lies : Header ε → Span → Prop
  | mk {name params type outer} (subject : name.Lies source outer)
      (telescope : ∀ p ∈ params, p.Lies source E outer) (typing : ∀ e ∈ type, E e outer) :
      Header.Lies ⟨name, params, type⟩ outer

/-- A declaration with its parts inside. Constructors, fields and declarations
of one list stand one after another. -/
inductive Decl.Lies : Decl ε → Span → Prop
  | dataType {span header constructors outer} (lies : span.Lies source outer)
      (head : header.Lies source E span) (types : ∀ g ∈ constructors, g.Lies source E span)
      (ordered : Span.Ordered (constructors.map Signature.span)) :
      Decl.Lies (.dataType span header constructors) outer
  | emptyData {span header outer} (lies : span.Lies source outer)
      (head : header.Lies source E span) : Decl.Lies (.emptyData span header) outer
  | recordType {span header builder fields decls outer} (lies : span.Lies source outer)
      (head : header.Lies source E span) (made : ∀ n ∈ builder, n.Lies source span)
      (types : ∀ g ∈ fields, g.Lies source E span)
      (ordered : Span.Ordered (fields.map Signature.span)) (each : ∀ d ∈ decls, Decl.Lies d span)
      (sequence : Span.Ordered (decls.map Decl.span)) :
      Decl.Lies (.recordType span header builder fields decls) outer
  | moduleBlock {span name params decls outer} (lies : span.Lies source outer)
      (head : name.Lies source span) (telescope : ∀ p ∈ params, p.Lies source E span)
      (each : ∀ d ∈ decls, Decl.Lies d span) (sequence : Span.Ordered (decls.map Decl.span)) :
      Decl.Lies (.moduleBlock span name params decls) outer
  | importModule {span kind name outer} (lies : span.Lies source outer)
      (head : name.Lies source span) : Decl.Lies (.importModule span kind name) outer
  | ascription {signature outer} (lies : signature.Lies source E outer) :
      Decl.Lies (.ascription signature) outer
  | clause {span patterns isOperator withPatterns withExpr rhs locals outer}
      (lies : span.Lies source outer) (left : ∀ e ∈ patterns, E e span)
      (others : ∀ e ∈ withPatterns, E e span) (scrutinee : ∀ e ∈ withExpr, E e span)
      (right : ∀ e ∈ rhs, E e span) (each : ∀ d ∈ locals, Decl.Lies d span)
      (sequence : Span.Ordered (locals.map Decl.span)) :
      Decl.Lies (.clause span patterns isOperator withPatterns withExpr rhs locals) outer
  | fixity {span fixity operators outer} (lies : span.Lies source outer)
      (subjects : ∀ n ∈ operators, n.Lies source span) :
      Decl.Lies (.fixity span fixity operators) outer

end

/-! ## Expressions -/

/-- An expression with its parts inside. -/
inductive Expr.Lies (source : String) : Expr → Span → Prop
  | leaf {l outer} (lies : l.Lies source outer) : Expr.Lies source (.leaf l) outer
  | paren {span e outer} (lies : span.Lies source outer) (inner : Expr.Lies source e span) :
      Expr.Lies source (.paren span e) outer
  | record {span builder fields outer} (lies : span.Lies source outer)
      (made : ∀ q ∈ builder, q.Lies source span)
      (values : ∀ f ∈ fields, f.Lies source (Expr.Lies source) span)
      (ordered : Span.Ordered (fields.map Assignment.span)) :
      Expr.Lies source (.record span builder fields) outer
  | arrow {span domain codomain outer} (lies : span.Lies source outer)
      (origin : Expr.Lies source domain span) (target : Expr.Lies source codomain span) :
      Expr.Lies source (.arrow span domain codomain) outer
  | pi {span params codomain outer} (lies : span.Lies source outer)
      (telescope : ∀ p ∈ params, p.Lies source (Expr.Lies source) span)
      (target : Expr.Lies source codomain span) : Expr.Lies source (.pi span params codomain) outer
  | bind {span binder bindings body outer} (lies : span.Lies source outer)
      (bound : ∀ b ∈ bindings, b.Lies source (Expr.Lies source) span)
      (result : Expr.Lies source body span) :
      Expr.Lies source (.bind span binder bindings body) outer
  | letIn {span decls body outer} (lies : span.Lies source outer)
      (each : ∀ d ∈ decls, d.Lies source (Expr.Lies source) span)
      (sequence : Span.Ordered (decls.map Decl.span)) (result : Expr.Lies source body span) :
      Expr.Lies source (.letIn span decls body) outer
  | app {span fn arg outer} (lies : span.Lies source outer) (head : Expr.Lies source fn span)
      (operand : Expr.Lies source arg span) (ordered : fn.span.stop ≤ arg.span.start) :
      Expr.Lies source (.app span fn arg) outer
  | operation {span operator left right outer} (lies : span.Lies source outer)
      (between : operator.Lies source span) (first : Expr.Lies source left span)
      (second : Expr.Lies source right span) (before : left.span.stop ≤ operator.span.start)
      (after : operator.span.stop ≤ right.span.start) :
      Expr.Lies source (.operation span operator left right) outer

/-- A file spans a stretch of the text, and its declarations lie in it one after
another. -/
structure File.Spanned (source : String) (file : File) : Prop where
  whole : file.span.Lies source ⟨0, source.utf8ByteSize⟩
  each : ∀ d ∈ file.decls, d.Lies source (Expr.Lies source) file.span
  sequence : Span.Ordered (file.decls.map Decl.span)

/-! ## Concrete expressions

The atoms of a run stand one after another, whatever becomes of them. -/

namespace Concrete

mutual

/-- An expression with its parts inside. -/
inductive Expr.Lies (source : String) : Expr → Span → Prop
  | run {span atoms outer} (lies : span.Lies source outer)
      (each : ∀ a ∈ atoms, Atom.Lies source a span)
      (ordered : Span.Ordered (atoms.map Atom.span)) : Expr.Lies source (.run span atoms) outer
  | arrow {span domain codomain outer} (lies : span.Lies source outer)
      (each : ∀ a ∈ domain, Atom.Lies source a span)
      (ordered : Span.Ordered (domain.map Atom.span)) (target : Expr.Lies source codomain span) :
      Expr.Lies source (.arrow span domain codomain) outer
  | bind {span binder bindings body outer} (lies : span.Lies source outer)
      (bound : ∀ b ∈ bindings, b.Lies source (Expr.Lies source) span)
      (result : Expr.Lies source body span) :
      Expr.Lies source (.bind span binder bindings body) outer
  | letIn {span decls body outer} (lies : span.Lies source outer)
      (each : ∀ d ∈ decls, d.Lies source (Expr.Lies source) span)
      (sequence : Span.Ordered (decls.map Decl.span)) (result : Expr.Lies source body span) :
      Expr.Lies source (.letIn span decls body) outer

/-- The same of an atom. -/
inductive Atom.Lies (source : String) : Atom → Span → Prop
  | leaf {l outer} (lies : l.Lies source outer) : Atom.Lies source (.leaf l) outer
  | paren {span e outer} (lies : span.Lies source outer) (inner : Expr.Lies source e span) :
      Atom.Lies source (.paren span e) outer
  | param {p outer} (lies : p.Lies source (Expr.Lies source) outer) :
      Atom.Lies source (.param p) outer
  | record {span builder fields outer} (lies : span.Lies source outer)
      (made : ∀ q ∈ builder, q.Lies source span)
      (values : ∀ f ∈ fields, f.Lies source (Expr.Lies source) span)
      (ordered : Span.Ordered (fields.map Assignment.span)) :
      Atom.Lies source (.record span builder fields) outer
  | tail {e outer} (inner : Expr.Lies source e outer) : Atom.Lies source (.tail e) outer

end

end Concrete

/-! ## Boundaries -/

namespace Text

theorem byteLength_toList (source : String) : byteLength source.toList = source.utf8ByteSize := by
  have hofList : ∀ cs : List Char, (String.ofList cs).utf8ByteSize = byteLength cs := by
    intro cs
    induction cs with
    | nil => rfl
    | cons c cs ih =>
      rw [String.ofList_cons, String.utf8ByteSize_append, ih, String.utf8ByteSize_singleton,
        byteLength_cons]
  rw [← hofList, String.ofList_toList]

theorem IsBoundary.le {source : String} {offset : Nat} (h : IsBoundary source offset) :
    offset ≤ source.utf8ByteSize := by
  obtain ⟨before, hbefore⟩ := Option.isSome_iff_exists.1 h
  obtain ⟨⟨_, after⟩, hsplit, -⟩ := Option.map_eq_some_iff.1 hbefore
  obtain ⟨hsource, hoffset⟩ := eq_append_of_splitAt? hsplit
  rw [← byteLength_toList, hsource, byteLength_append, hoffset]
  exact Nat.le_add_right _ _

theorem isBoundary_zero (source : String) : IsBoundary source 0 := by
  cases h : source.toList <;> simp [IsBoundary, before?, splitAt?, h]

theorem isBoundary_of_eq_append {source : String} {before after : List Char}
    (h : source.toList = before ++ after) : IsBoundary source (byteLength before) := by
  rw [IsBoundary, before?, h, splitAt?_byteLength]
  rfl

theorem isBoundary_size (source : String) : IsBoundary source source.utf8ByteSize := by
  rw [← byteLength_toList]
  exact isBoundary_of_eq_append (List.append_nil _).symm

end Text

variable {source : String} {outer : Span}

theorem Span.contains_iff {a b : Span} :
    a.contains b = true ↔ a.start ≤ b.start ∧ b.stop ≤ a.stop := by
  simp [Span.contains]

/-- Boundaries in order delimit a stretch of the text. -/
theorem Span.lies_of {span : Span} (start : Text.IsBoundary source span.start)
    (stop : Text.IsBoundary source span.stop) (le : span.start ≤ span.stop)
    (first : outer.start ≤ span.start) (last : span.stop ≤ outer.stop) : span.Lies source outer :=
  ⟨le, stop.le, start, stop, contains_iff.2 ⟨first, last⟩⟩

/-- What lies before something else ends before it starts. -/
theorem Span.Lies.before {a b outer' : Span} (ha : a.Lies source outer) (hb : b.Lies source outer')
    (hle : outer.stop ≤ outer'.start) : a.stop ≤ b.start := by
  have hlast := (contains_iff.1 ha.inside).2
  have hfirst := (contains_iff.1 hb.inside).1
  omega

theorem Span.Lies.moved {a outer' : Span} (h : a.Lies source outer)
    (hin : outer'.contains a = true) : a.Lies source outer' :=
  ⟨h.le, h.bounded, h.start, h.stop, hin⟩

theorem Span.Lies.trans {a b : Span} (ha : a.Lies source b) (hb : b.Lies source outer) :
    a.Lies source outer := by
  have hinner := contains_iff.1 ha.inside
  have houter := contains_iff.1 hb.inside
  exact ha.moved (contains_iff.2 ⟨by omega, by omega⟩)

theorem Span.Lies.self {a : Span} (h : a.Lies source outer) : a.Lies source a :=
  h.moved (contains_iff.2 ⟨Nat.le_refl _, Nat.le_refl _⟩)

theorem Span.Lies.merge {a b : Span} (ha : a.Lies source outer) (hb : b.Lies source outer) :
    (a.merge b).Lies source outer := by
  have hina := contains_iff.1 ha.inside
  have hinb := contains_iff.1 hb.inside
  have hle := ha.le
  refine lies_of ?_ ?_ ?_ ?_ ?_ <;> simp only [Span.merge]
  · rcases Nat.le_total a.start b.start with h | h
    · rw [Nat.min_eq_left h]
      exact ha.start
    · rw [Nat.min_eq_right h]
      exact hb.start
  · rcases Nat.le_total a.stop b.stop with h | h
    · rw [Nat.max_eq_right h]
      exact hb.stop
    · rw [Nat.max_eq_left h]
      exact ha.stop
  all_goals omega

/-! ## The span of a node -/

/-- Where `E` places a node, the span of the node lies. -/
def Located {α : Type} (source : String) (E : α → Span → Prop) (span : α → Span) : Prop :=
  ∀ a outer, E a outer → (span a).Lies source outer

theorem Name.located : Located source (Name.Lies source) Name.span := fun _ _ h => h

theorem Leaf.located : Located source (Leaf.Lies source) Leaf.span := by
  intro l outer h
  cases h with
  | name lies => exact lies.lies
  | other _ lies => exact lies

section

variable {ε : Type} {E : ε → Span → Prop}

theorem Param.located : Located source (Param.Lies source E) Param.span := by
  intro p outer h
  cases h with
  | mk lies => exact lies

theorem Binding.located : Located source (Binding.Lies source E) Binding.span := by
  intro b outer h
  cases h with
  | name lies => exact lies
  | typed lies => exact Param.located _ _ lies

theorem Assignment.located : Located source (Assignment.Lies source E) Assignment.span := by
  intro f outer h
  cases h with
  | mk lies => exact lies

theorem Signature.located : Located source (Signature.Lies source E) Signature.span := by
  intro g outer h
  cases h with
  | mk lies => exact lies

theorem Decl.located : Located source (Decl.Lies source E) Decl.span := by
  intro d outer h
  cases h with
  | ascription lies => exact Signature.located _ _ lies
  | _ => assumption

end

theorem Concrete.Expr.located : Located source (Concrete.Expr.Lies source) Concrete.Expr.span := by
  intro e outer h
  cases h <;> assumption

theorem Concrete.Atom.located : Located source (Concrete.Atom.Lies source) Concrete.Atom.span := by
  intro a outer h
  cases h with
  | leaf lies => exact Leaf.located _ _ lies
  | param lies => exact Param.located _ _ lies
  | tail inner => exact Expr.located _ _ inner
  | _ => assumption

theorem Expr.located : Located source (Expr.Lies source) Expr.span := by
  intro e outer h
  cases h with
  | leaf lies => exact Leaf.located _ _ lies
  | _ => assumption

/-! ## Moving to another span -/

/-- Where the span of an expression lies, the expression lies. -/
theorem Expr.Lies.within {e : Expr} {inner : Span} (h : e.Lies source inner)
    (hspan : e.span.Lies source outer) : e.Lies source outer := by
  cases h with
  | leaf lies =>
    cases lies with
    | name lies => exact .leaf (.name ⟨hspan, lies.parts⟩)
    | other isOther _ => exact .leaf (.other isOther hspan)
  | paren _ inner => exact .paren hspan inner
  | record _ made values ordered => exact .record hspan made values ordered
  | arrow _ origin target => exact .arrow hspan origin target
  | pi _ telescope target => exact .pi hspan telescope target
  | bind _ bound result => exact .bind hspan bound result
  | letIn _ each sequence result => exact .letIn hspan each sequence result
  | app _ head operand ordered => exact .app hspan head operand ordered
  | operation _ between first second before after =>
    exact .operation hspan between first second before after

theorem Expr.Lies.trans {e : Expr} {inner : Span} (h : e.Lies source inner)
    (hinner : inner.Lies source outer) : e.Lies source outer :=
  h.within ((Expr.located _ _ h).trans hinner)

/-- An atom lies in its own span. -/
theorem Concrete.Atom.Lies.self {a : Concrete.Atom} (h : a.Lies source outer) :
    a.Lies source a.span := by
  have hspan := (Concrete.Atom.located _ _ h).self
  cases h with
  | leaf lies =>
    cases lies with
    | name lies => exact .leaf (.name ⟨hspan, lies.parts⟩)
    | other isOther _ => exact .leaf (.other isOther hspan)
  | paren _ inner => exact .paren hspan inner
  | param lies =>
    cases lies with
    | mk _ subjects typing => exact .param (.mk hspan subjects typing)
  | record _ made values ordered => exact .record hspan made values ordered
  | tail inner =>
    cases inner with
    | run _ each ordered => exact .tail (.run hspan each ordered)
    | arrow _ each ordered target => exact .tail (.arrow hspan each ordered target)
    | bind _ bound result => exact .tail (.bind hspan bound result)
    | letIn _ each sequence result => exact .tail (.letIn hspan each sequence result)

end Offside
