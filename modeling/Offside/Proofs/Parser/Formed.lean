-- SUMMARY: Whatever the parser gives is well formed, problems recorded or not.
import Offside.Proofs.Concrete.Written
import Offside.Proofs.Parser.Members
import Offside.Proofs.Parser.Returns

/-! # What the parser gives

Recovery leaves out what does not parse. What is left is a tree of the grammar
all the same, and its names stand where their segments do: `file_formed`. -/

namespace Offside

/-- A name without qualification stands where its segment does. -/
def QualifiedName.Placed (q : QualifiedName) : Prop :=
  ∀ n, q.segments = [n] → q.span = n.span

namespace Concrete

mutual

/-- The names among the operands of an expression stand where their segments
do. -/
inductive Expr.Placed : Expr → Prop
  | run {span atoms} (each : ∀ a ∈ atoms, Atom.Placed a) : Expr.Placed (.run span atoms)
  | arrow {span domain codomain} (each : ∀ a ∈ domain, Atom.Placed a)
      (target : Expr.Placed codomain) : Expr.Placed (.arrow span domain codomain)
  | bind {span binder bindings body} (types : ∀ p, .typed p ∈ bindings → Expr.Placed p.type)
      (result : Expr.Placed body) : Expr.Placed (.bind span binder bindings body)
  | letIn {span decls body} (each : ∀ d ∈ decls, Decl.Placed d) (result : Expr.Placed body) :
      Expr.Placed (.letIn span decls body)

/-- The same of an atom. -/
inductive Atom.Placed : Atom → Prop
  | leaf {l} (name : ∀ q, l = .name q → q.Placed) : Atom.Placed (.leaf l)
  | paren {span e} (inner : Expr.Placed e) : Atom.Placed (.paren span e)
  | param {p} (type : Expr.Placed p.type) : Atom.Placed (.param p)
  | record {span builder fields} (values : ∀ f ∈ fields, Expr.Placed f.value) :
      Atom.Placed (.record span builder fields)
  | tail {e} (inner : Expr.Placed e) : Atom.Placed (.tail e)

/-- The same of a declaration. -/
inductive Decl.Placed : Decl Expr → Prop
  | dataType {span header constructors} (params : ∀ p ∈ header.params, Expr.Placed p.type)
      (type : ∀ e ∈ header.type, Expr.Placed e) (types : ∀ g ∈ constructors, Expr.Placed g.type) :
      Decl.Placed (.dataType span header constructors)
  | emptyData {span header} (params : ∀ p ∈ header.params, Expr.Placed p.type)
      (type : ∀ e ∈ header.type, Expr.Placed e) : Decl.Placed (.emptyData span header)
  | recordType {span header builder fields decls} (params : ∀ p ∈ header.params, Expr.Placed p.type)
      (type : ∀ e ∈ header.type, Expr.Placed e) (types : ∀ g ∈ fields, Expr.Placed g.type)
      (each : ∀ d ∈ decls, Decl.Placed d) :
      Decl.Placed (.recordType span header builder fields decls)
  | moduleBlock {span name params decls} (types : ∀ p ∈ params, Expr.Placed p.type)
      (each : ∀ d ∈ decls, Decl.Placed d) : Decl.Placed (.moduleBlock span name params decls)
  | importModule {span kind name} : Decl.Placed (.importModule span kind name)
  | ascription {signature} (type : Expr.Placed signature.type) : Decl.Placed (.ascription signature)
  | clause {span patterns isOperator withPatterns withExpr rhs locals}
      (left : ∀ e ∈ patterns, Expr.Placed e) (others : ∀ e ∈ withPatterns, Expr.Placed e)
      (scrutinee : ∀ e ∈ withExpr, Expr.Placed e) (right : ∀ e ∈ rhs, Expr.Placed e)
      (each : ∀ d ∈ locals, Decl.Placed d) :
      Decl.Placed (.clause span patterns isOperator withPatterns withExpr rhs locals)
  | fixity {span fixity operators} : Decl.Placed (.fixity span fixity operators)

end

/-- An expression as the parser gives it. -/
structure Expr.Formed (limit levels : Nat) (e : Expr) : Prop where
  wellFormed : e.WellFormed limit levels
  placed : e.Placed

/-- An atom as the parser gives it. -/
structure Atom.Formed (limit levels : Nat) (a : Atom) : Prop where
  wellFormed : a.WellFormed limit levels
  placed : a.Placed

/-- A declaration as the parser gives it. -/
structure Decl.Formed (limit levels : Nat) (d : Decl Expr) : Prop where
  wellFormed : Decl.WellFormed limit levels d
  placed : Decl.Placed d

end Concrete

/-- A typed parameter as the parser gives it. -/
structure Param.Formed (limit levels : Nat) (p : Param Concrete.Expr) : Prop where
  names_ne : p.names ≠ []
  type : p.type.Formed limit levels

/-- A signature as the parser gives it. -/
structure Signature.Formed (limit levels : Nat) (g : Signature Concrete.Expr) : Prop where
  names_ne : g.names ≠ []
  type : g.type.Formed limit levels

namespace Parser

variable {c c' : Cursor} {limit levels : Nat}

/-- A member of a record type as the parser gives it. -/
structure Member.Formed (limit levels : Nat) (m : Member) : Prop where
  field : ∀ g, m = .field g → g.Formed limit levels
  decl : ∀ d, m = .decl d → Concrete.Decl.Formed limit levels d

/-- What `inner` gives is formed and nests at most `levels` deep. An expression
extends as far right as it can, and its first token tells its form. -/
structure Inner.Forms (limit : Nat) (inner : Inner) (levels : Nat) : Prop where
  expr : ∀ c e c', inner.expr.Returns c e c' → e.Formed limit levels ∧ c'.token ≠ .arrow ∧
    e.isForm = c.token.startsTail ∧ (e.leadsWithRecord = true → c.token = .kwRecord)
  decls : ∀ c ds c', inner.decls.Returns c ds c' →
    0 < levels ∧ ∀ d ∈ ds, Concrete.Decl.Formed limit (levels - 1) d
  constructors : ∀ c gs c', inner.constructors.Returns c gs c' →
    0 < levels ∧ ∀ g ∈ gs, Signature.Formed limit (levels - 1) g
  members : ∀ c ms c', inner.members.Returns c ms c' →
    0 < levels ∧ ∀ m ∈ ms, Member.Formed limit (levels - 1) m

namespace Inner

variable {inner : Inner}

/-! ## Expressions -/

theorem formed_param (hinner : inner.Forms limit levels) {p : Param Concrete.Expr}
    (h : inner.param.Returns c p c') : p.Formed limit levels := by
  simp only [param, returns_bind_iff] at h
  obtain ⟨opening, c₁, -, names, c₂, -, h⟩ := h
  split at h
  · simp at h
  · rename_i hne
    simp only [returns_bind_iff] at h
    obtain ⟨colon, c₃, -, type, c₄, htype, h⟩ := h
    obtain ⟨hnames, htype'⟩ : p.names = names ∧ p.type = type := by
      split at h <;>
        simp only [returns_bind_iff, returns_spanFrom_iff, returns_pure_iff] at h <;>
        obtain ⟨-, c₅, -, span, c₆, -, rfl, -⟩ := h <;> exact ⟨rfl, rfl⟩
    refine ⟨by rw [hnames]; simpa using hne, ?_⟩
    rw [htype']
    exact (hinner.expr _ _ _ htype).1

theorem formed_binding (hinner : inner.Forms limit levels) {expected : String}
    {b : Binding Concrete.Expr} (h : (inner.binding expected).Returns c b c') :
    ∀ p, b = .typed p → p.Formed limit levels := by
  simp only [binding, returns_bind_iff, returns_look_iff] at h
  obtain ⟨_, _, ⟨rfl, rfl⟩, h⟩ := h
  split at h
  · simp only [returns_bind_iff, returns_look_iff] at h
    obtain ⟨_, _, ⟨rfl, rfl⟩, h⟩ := h
    split at h
    · obtain ⟨p, hp, rfl⟩ := returns_map_iff.1 h
      rintro _ ⟨⟩
      exact formed_param hinner hp
    · simp at h
  · obtain ⟨n, -, rfl⟩ := returns_map_iff.1 h
    simp

theorem formed_bindings (hinner : inner.Forms limit levels) {expected : String}
    {bs : List (Binding Concrete.Expr)} (h : (inner.bindings expected).Returns c bs c') :
    bs ≠ [] ∧ ∀ p, .typed p ∈ bs → p.Formed limit levels := by
  simp only [bindings, returns_bind_iff] at h
  obtain ⟨bs', c₁, hbs, h⟩ := h
  split at h
  · simp at h
  · rename_i hne
    simp only [returns_bind_iff, returns_pure_iff] at h
    obtain ⟨_, _, -, rfl, -⟩ := h
    refine ⟨by simpa using hne, fun p hp => ?_⟩
    obtain ⟨_, _, -, hb⟩ := exists_returns_of_whileAt hbs _ hp
    exact formed_binding hinner hb p rfl

theorem formed_bind (hinner : inner.Forms limit levels) {binder : Binder} {expected : String}
    {e : Concrete.Expr} (h : (inner.bind binder expected).Returns c e c') :
    e.Formed limit (levels + 1) ∧ c'.token ≠ .arrow ∧ e.isForm = true := by
  simp only [bind, returns_bind_iff, returns_spanFrom_iff, returns_pure_iff] at h
  obtain ⟨_, _, -, bs, c₂, hbs, body, c₃, hbody, _, _, ⟨-, rfl⟩, rfl, rfl⟩ := h
  obtain ⟨hne, htyped⟩ := formed_bindings hinner hbs
  obtain ⟨hbody, hend, -⟩ := hinner.expr _ _ _ hbody
  refine ⟨⟨?_, ?_⟩, hend, rfl⟩
  · exact .bind hne (fun p hp => (htyped p hp).names_ne) (fun p hp => (htyped p hp).type.wellFormed)
      hbody.wellFormed
  · exact .bind (fun p hp => (htyped p hp).type.placed) hbody.placed

theorem formed_letIn (hinner : inner.Forms limit levels) {e : Concrete.Expr}
    (h : inner.letIn.Returns c e c') :
    e.Formed limit (levels + 1) ∧ c'.token ≠ .arrow ∧ e.isForm = true := by
  simp only [letIn, returns_bind_iff, returns_spanFrom_iff, returns_pure_iff] at h
  obtain ⟨_, _, -, ds, c₂, hds, _, _, -, body, c₄, hbody, _, _, ⟨-, rfl⟩, rfl, rfl⟩ := h
  obtain ⟨hlevels, hds⟩ := hinner.decls _ _ _ hds
  obtain ⟨hbody, hend, -⟩ := hinner.expr _ _ _ hbody
  obtain ⟨k, rfl⟩ := Nat.exists_eq_add_one.2 hlevels
  refine ⟨⟨?_, ?_⟩, hend, rfl⟩
  · exact .letIn (fun d hd => (hds d hd).wellFormed) hbody.wellFormed
  · exact .letIn (fun d hd => (hds d hd).placed) hbody.placed

theorem formed_assignment (hinner : inner.Forms limit levels) {f : Assignment Concrete.Expr}
    (h : inner.assignment.Returns c f c') : f.value.Formed limit levels := by
  simp only [assignment, returns_bind_iff, returns_pure_iff] at h
  obtain ⟨n, c₁, -, _, _, -, e, c₃, he, _, _, -, rfl, -⟩ := h
  exact (hinner.expr _ _ _ he).1

theorem formed_assignments (hinner : inner.Forms limit levels) {fs : List (Assignment Concrete.Expr)}
    (h : inner.assignments.Returns c fs c') : ∀ f ∈ fs, f.value.Formed limit levels := by
  simp only [assignments, returns_bind_iff, returns_look_iff] at h
  obtain ⟨_, _, ⟨rfl, rfl⟩, h⟩ := h
  split at h
  · obtain ⟨rfl, -⟩ := returns_pure_iff.1 h
    simp
  · simp only [returns_bind_iff, returns_pure_iff] at h
    obtain ⟨f, c₁, hf, fs, c₂, hfs, rfl, -⟩ := h
    refine List.forall_mem_cons.2 ⟨formed_assignment hinner hf, fun g hg => ?_⟩
    obtain ⟨_, _, -, hg⟩ := exists_returns_of_whileAt hfs g hg
    simp only [returns_bind_iff] at hg
    obtain ⟨_, _, -, hg⟩ := hg
    exact formed_assignment hinner hg

theorem formed_recordValue (hinner : inner.Forms limit levels) {a : Concrete.Atom}
    (h : inner.recordValue.Returns c a c') : a.Formed limit levels ∧ a.isTail = false := by
  simp only [recordValue, returns_bind_iff, returns_look_iff] at h
  obtain ⟨_, _, -, _, _, ⟨rfl, rfl⟩, h⟩ := h
  obtain ⟨builder, c₂, hsegments, h⟩ : ∃ builder c₂,
      (∀ q ∈ builder, q.segments ≠ []) ∧
      Returns (do
        expect .lbrace "to start record fields"
        let fields ← inner.assignments
        let _ ← advance
        return .record (← spanFrom _) builder fields) c₂ a c' := by
    split at h
    · obtain ⟨_, c₂, hbuilder, h⟩ := returns_bind_iff.1 h
      obtain ⟨q, hq, rfl⟩ := returns_map_iff.1 hbuilder
      exact ⟨some q, c₂, by simpa using (returns_qualifiedName hq).1, h⟩
    · exact ⟨none, _, by simp, h⟩
  simp only [returns_bind_iff, returns_pure_iff] at h
  obtain ⟨_, _, -, fs, c₄, hfs, _, _, -, _, _, -, rfl, -⟩ := h
  have hfields := formed_assignments hinner hfs
  exact ⟨⟨.record hsegments fun f hf => (hfields f hf).wellFormed,
    .record fun f hf => (hfields f hf).placed⟩, rfl⟩

theorem formed_paren (hinner : inner.Forms limit levels) {a : Concrete.Atom}
    (h : inner.paren.Returns c a c') : a.Formed limit levels ∧ a.isTail = false := by
  simp only [paren, returns_bind_iff, returns_pure_iff] at h
  obtain ⟨_, _, -, e, c₂, he, _, _, -, _, _, -, rfl, -⟩ := h
  have he := (hinner.expr _ _ _ he).1
  exact ⟨⟨.paren he.wellFormed, .paren he.placed⟩, rfl⟩

theorem formed_leaf {make : Span → Leaf} {a : Concrete.Atom} (hname : ∀ span q, make span ≠ .name q)
    (h : (leaf make).Returns c a c') :
    a.Formed limit levels ∧ a.isTail = false ∧ Concrete.Expr.leadsWithRecord (.run default [a]) = false := by
  simp only [leaf, returns_bind_iff, returns_pure_iff] at h
  obtain ⟨_, _, -, rfl, -⟩ := h
  exact ⟨⟨.leaf fun q hq => absurd hq (hname _ q), .leaf fun q hq => absurd hq (hname _ q)⟩, rfl, rfl⟩

theorem formed_paramAtom {p : Param Concrete.Expr} (h : p.Formed limit levels) :
    Concrete.Atom.Formed limit levels (.param p) :=
  ⟨.param h.names_ne h.type.wellFormed, .param h.type.placed⟩

/-- An atom is no form, and a record value only at its keyword. -/
theorem formed_atom (hinner : inner.Forms limit levels) {a : Concrete.Atom}
    (h : inner.atom.Returns c a c') : a.Formed limit levels ∧ a.isTail = false ∧
      (Concrete.Expr.leadsWithRecord (.run default [a]) = true → c.token = .kwRecord) := by
  have hleaf : ∀ {make : Span → Leaf}, (∀ span q, make span ≠ .name q) →
      (leaf make).Returns c a c' → a.Formed limit levels ∧ a.isTail = false ∧
        (Concrete.Expr.leadsWithRecord (.run default [a]) = true → c.token = .kwRecord) := by
    intro make hname h
    obtain ⟨hformed, htail, hlead⟩ := formed_leaf hname h
    exact ⟨hformed, htail, fun h => by simp [hlead] at h⟩
  obtain ⟨_, _, hlook, h⟩ := returns_bind_iff.1 h
  obtain ⟨rfl, rfl⟩ := returns_look_iff.1 hlook
  cases hat : c.token with
  | ident text =>
    rw [hat] at h
    simp only [returns_bind_iff, returns_pure_iff] at h
    obtain ⟨q, c₁, hq, rfl, -⟩ := h
    obtain ⟨hne, hplaced⟩ := returns_qualifiedName hq
    refine ⟨⟨.leaf ?_, .leaf ?_⟩, rfl, fun h => by cases h⟩
    · rintro _ ⟨⟩
      exact hne
    · rintro _ ⟨⟩
      exact hplaced
  | underscore | unit | kwType | integer =>
    rw [hat] at h
    rw [← hat]
    exact hleaf (by simp) h
  | lparen =>
    rw [hat] at h
    simp only [returns_bind_iff, returns_look_iff] at h
    obtain ⟨_, _, ⟨rfl, rfl⟩, h⟩ := h
    split at h
    · obtain ⟨p, hp, rfl⟩ := returns_map_iff.1 h
      exact ⟨formed_paramAtom (formed_param hinner hp), rfl, fun h => by cases h⟩
    · obtain ⟨hformed, htail⟩ := formed_paren hinner h
      simp only [paren, returns_bind_iff, returns_pure_iff] at h
      obtain ⟨_, _, -, _, _, -, _, _, -, _, _, -, rfl, -⟩ := h
      exact ⟨hformed, htail, fun h => by cases h⟩
  | lbrace =>
    rw [hat] at h
    obtain ⟨p, hp, rfl⟩ := returns_map_iff.1 h
    exact ⟨formed_paramAtom (formed_param hinner hp), rfl, fun h => by cases h⟩
  | kwRecord =>
    rw [hat] at h
    obtain ⟨hformed, htail⟩ := formed_recordValue hinner h
    exact ⟨hformed, htail, fun _ => rfl⟩
  | _ =>
    rw [hat] at h
    exact absurd h not_returns_unexpected

/-! ## Runs -/

/-- A run that does not begin with a form. -/
theorem formed_run (hinner : inner.Forms limit levels) (hstart : c.token.startsTail = false)
    {atoms : List Concrete.Atom} (h : inner.run.Returns c atoms c') :
    Concrete.RunShape atoms ∧ (∀ a ∈ atoms, a.Formed limit levels) ∧
      (c'.token = .arrow → ∀ a ∈ atoms, a.isTail = false) ∧
      (Concrete.Expr.leadsWithRecord (.run default atoms) = true → c.token = .kwRecord) := by
  simp only [run, returns_bind_iff, returns_look_iff] at h
  obtain ⟨atoms, c₁, hatoms, _, _, ⟨rfl, rfl⟩, h⟩ := h
  have heach : ∀ a ∈ atoms, a.Formed limit levels ∧ a.isTail = false := by
    intro a ha
    obtain ⟨_, _, -, ha⟩ := exists_returns_of_whileAt hatoms a ha
    obtain ⟨hformed, htail, -⟩ := formed_atom hinner ha
    exact ⟨hformed, htail⟩
  -- the first atom stands at the start, and without one nothing was read
  have hfirst : (atoms = [] ∧ c = c₁) ∨ ∃ a as, atoms = a :: as ∧
      (Concrete.Expr.leadsWithRecord (.run default [a]) = true → c.token = .kwRecord) := by
    rcases returns_whileAt hatoms with ⟨rfl, -, rfl⟩ | ⟨a, c₂, as, -, ha, rfl, -⟩
    · exact .inl ⟨rfl, rfl⟩
    · exact .inr ⟨a, as, rfl, (formed_atom hinner ha).2.2⟩
  have hlead : ∀ last, (atoms = [] → last = []) →
      Concrete.Expr.leadsWithRecord (.run default (atoms ++ last)) = true → c.token = .kwRecord := by
    intro last hlast hlead
    rcases hfirst with ⟨rfl, -⟩ | ⟨a, as, rfl, hfirst⟩
    · simp [hlast rfl, Concrete.Expr.leadsWithRecord] at hlead
    · rw [List.cons_append, Concrete.Expr.leadsWithRecord_cons] at hlead
      exact hfirst hlead
  split at h
  · rename_i htail
    obtain ⟨_, c₂, hlast, h⟩ := returns_bind_iff.1 h
    obtain ⟨e, he, rfl⟩ := returns_map_iff.1 hlast
    obtain ⟨hformed, hend, hform, -⟩ := hinner.expr _ _ _ he
    have hne : atoms ≠ [] := by
      rintro rfl
      rcases hfirst with ⟨-, rfl⟩ | ⟨_, _, hcons, -⟩
      · rw [atTail_eq, hstart] at htail
        exact absurd htail (by simp)
      · simp at hcons
    split at h
    · rename_i hempty
      simp at hempty
    · obtain ⟨rfl, rfl⟩ := returns_pure_iff.1 h
      refine ⟨.concat hne (fun a ha => (heach a ha).2) e, ?_, fun harrow => absurd harrow hend,
        hlead _ fun hnil => absurd hnil hne⟩
      intro a ha
      rcases List.mem_append.1 ha with ha | ha
      · exact (heach a ha).1
      · rw [List.mem_singleton.1 ha]
        exact ⟨.tail (hform.trans htail) hformed.wellFormed, .tail hformed.placed⟩
  · obtain ⟨_, _, hnone, h⟩ := returns_bind_iff.1 h
    obtain ⟨rfl, rfl⟩ := returns_pure_iff.1 hnone
    split at h
    · simp at h
    · rename_i hne
      obtain ⟨rfl, rfl⟩ := returns_pure_iff.1 h
      have hlead := hlead [] fun _ => rfl
      rw [List.append_nil] at hne hlead ⊢
      exact ⟨.of_isTail (by simpa using hne) fun a ha => (heach a ha).2, fun a ha => (heach a ha).1,
        fun _ a ha => (heach a ha).2, hlead⟩

theorem formed_runOrArrow (hinner : inner.Forms limit levels) (hstart : c.token.startsTail = false)
    {e : Concrete.Expr} (h : inner.runOrArrow.Returns c e c') :
    e.Formed limit (levels + 1) ∧ c'.token ≠ .arrow ∧ e.isForm = false ∧
      (e.leadsWithRecord = true → c.token = .kwRecord) := by
  simp only [runOrArrow, returns_bind_iff, returns_start_iff] at h
  obtain ⟨_, _, ⟨rfl, rfl⟩, atoms, c₁, hatoms, arrow, c₂, heat, h⟩ := h
  obtain ⟨hshape, heach, hdomain, hlead⟩ := formed_run hinner hstart hatoms
  rcases returns_eat_iff.1 heat with ⟨harrow, rfl, rfl⟩ | ⟨harrow, rfl, rfl⟩
  · simp only [if_true, returns_bind_iff, returns_spanFrom_iff, returns_pure_iff] at h
    obtain ⟨codomain, c₃, hcodomain, _, _, ⟨-, rfl⟩, rfl, rfl⟩ := h
    obtain ⟨hformed, hend, -⟩ := hinner.expr _ _ _ hcodomain
    refine ⟨⟨.arrow hshape.ne_nil (hdomain harrow) (fun a ha => (heach a ha).wellFormed)
      hformed.wellFormed, .arrow (fun a ha => (heach a ha).placed) hformed.placed⟩, hend, rfl, ?_⟩
    rw [Concrete.Expr.leadsWithRecord_arrow]
    exact hlead
  · simp only [Bool.false_eq_true, if_false, returns_bind_iff, returns_spanFrom_iff,
      returns_pure_iff] at h
    obtain ⟨_, _, ⟨-, rfl⟩, rfl, rfl⟩ := h
    refine ⟨⟨.run hshape fun a ha => (heach a ha).wellFormed, .run fun a ha => (heach a ha).placed⟩,
      harrow, rfl, ?_⟩
    rw [Concrete.Expr.leadsWithRecord_run]
    exact hlead

theorem formed_expression (hinner : inner.Forms limit levels) {e : Concrete.Expr}
    (h : inner.expression.Returns c e c') : e.Formed limit (levels + 1) ∧ c'.token ≠ .arrow ∧
      e.isForm = c.token.startsTail ∧ (e.leadsWithRecord = true → c.token = .kwRecord) := by
  have hform : ∀ {e : Concrete.Expr}, e.isForm = true → e.leadsWithRecord = true →
      c.token = .kwRecord := by
    intro e hform hlead
    cases e <;> simp [Concrete.Expr.isForm, Concrete.Expr.leadsWithRecord] at hform hlead
  simp only [expression, returns_bind_iff, returns_look_iff] at h
  obtain ⟨_, _, ⟨rfl, rfl⟩, h⟩ := h
  split at h
  · obtain ⟨hformed, hend, he⟩ := formed_bind hinner h
    exact ⟨hformed, hend, by simp [*, Token.startsTail], hform he⟩
  · obtain ⟨hformed, hend, he⟩ := formed_bind hinner h
    exact ⟨hformed, hend, by simp [*, Token.startsTail], hform he⟩
  · obtain ⟨hformed, hend, he⟩ := formed_letIn hinner h
    exact ⟨hformed, hend, by simp [*, Token.startsTail], hform he⟩
  · simp at h
  · have hstart : c.token.startsTail = false := by
      cases ht : c.token <;> first | rfl | simp_all
    obtain ⟨hformed, hend, he, hlead⟩ := formed_runOrArrow hinner hstart h
    exact ⟨hformed, hend, by rw [he, hstart], hlead⟩

/-! ## Declarations -/

theorem formed_params (hinner : inner.Forms limit levels) {ps : List (Param Concrete.Expr)}
    (h : inner.params.Returns c ps c') : ∀ p ∈ ps, p.Formed limit levels := by
  intro p hp
  obtain ⟨_, _, -, hp⟩ := exists_returns_of_whileAt h p hp
  exact formed_param hinner hp

theorem formed_header (hinner : inner.Forms limit levels) {expected : String}
    {header : Header Concrete.Expr} (h : (inner.header expected).Returns c header c') :
    (∀ p ∈ header.params, p.Formed limit levels) ∧ ∀ e ∈ header.type, e.Formed limit levels := by
  simp only [Inner.header, returns_bind_iff, returns_pure_iff] at h
  obtain ⟨n, c₁, -, ps, c₂, hps, type, c₃, htype, rfl, -⟩ := h
  refine ⟨formed_params hinner hps, fun e he => ?_⟩
  exact (hinner.expr _ _ _ (returns_of_mem_optional htype he)).1

theorem formed_signature (hinner : inner.Forms limit levels) {start : Nat}
    {expected context : String} {g : Signature Concrete.Expr}
    (h : (inner.signature start expected context).Returns c g c') : g.Formed limit levels := by
  simp only [signature, returns_bind_iff, returns_pure_iff] at h
  obtain ⟨ns, c₁, hns, _, _, -, e, c₃, he, _, _, -, rfl, -⟩ := h
  exact ⟨returns_names_ne_nil hns, (hinner.expr _ _ _ he).1⟩

theorem formed_constructorSignature (hinner : inner.Forms limit levels)
    {g : Signature Concrete.Expr} (h : inner.constructorSignature.Returns c g c') :
    g.Formed limit levels := by
  simp only [constructorSignature, returns_bind_iff] at h
  obtain ⟨_, _, -, _, _, -, h⟩ := h
  exact formed_signature hinner h

theorem formed_dataType (hinner : inner.Forms limit levels) {d : Decl Concrete.Expr}
    (h : inner.dataType.Returns c d c') : Concrete.Decl.Formed limit levels d := by
  simp only [dataType, returns_bind_iff] at h
  obtain ⟨_, _, -, header, c₂, hheader, block, c₃, heat, h⟩ := h
  obtain ⟨hparams, htype⟩ := formed_header hinner hheader
  cases block with
  | true =>
    simp only [if_true, returns_bind_iff, returns_pure_iff] at h
    obtain ⟨gs, c₄, hgs, _, _, -, rfl, -⟩ := h
    obtain ⟨hlevels, hgs⟩ := hinner.constructors _ _ _ hgs
    obtain ⟨k, rfl⟩ := Nat.exists_eq_add_one.2 hlevels
    exact ⟨.dataType (fun p hp => (hparams p hp).names_ne)
        (fun p hp => (hparams p hp).type.wellFormed) (fun e he => (htype e he).wellFormed)
        (fun g hg => (hgs g hg).names_ne) (fun g hg => (hgs g hg).type.wellFormed),
      .dataType (fun p hp => (hparams p hp).type.placed) (fun e he => (htype e he).placed)
        (fun g hg => (hgs g hg).type.placed)⟩
  | false =>
    simp only [Bool.false_eq_true, if_false, returns_bind_iff, returns_pure_iff] at h
    obtain ⟨_, _, -, rfl, -⟩ := h
    exact ⟨.emptyData (fun p hp => (hparams p hp).names_ne)
        (fun p hp => (hparams p hp).type.wellFormed) (fun e he => (htype e he).wellFormed),
      .emptyData (fun p hp => (hparams p hp).type.placed) (fun e he => (htype e he).placed)⟩

theorem formed_recordType (hinner : inner.Forms limit levels) {d : Decl Concrete.Expr}
    (h : inner.recordType.Returns c d c') : Concrete.Decl.Formed limit levels d := by
  simp only [recordType, returns_bind_iff, returns_record_iff, returns_pure_iff] at h
  obtain ⟨_, _, -, header, c₂, hheader, _, _, -, ms, c₄, hms, _, _, -, _, _, -, rfl, -⟩ := h
  obtain ⟨hparams, htype⟩ := formed_header hinner hheader
  obtain ⟨hlevels, hms⟩ := hinner.members _ _ _ hms
  obtain ⟨k, rfl⟩ := Nat.exists_eq_add_one.2 hlevels
  have hfields : ∀ g ∈ ms.filterMap Member.field?, Signature.Formed limit k g := by
    intro g hg
    obtain ⟨m, hm, hfield⟩ := List.mem_filterMap.1 hg
    exact (hms m hm).field g (Member.field?_eq_some.1 hfield)
  have hdecls : ∀ d ∈ ms.filterMap Member.decl?, Concrete.Decl.Formed limit k d := by
    intro d hd
    obtain ⟨m, hm, hdecl⟩ := List.mem_filterMap.1 hd
    exact (hms m hm).decl d (Member.decl?_eq_some.1 hdecl)
  exact ⟨.recordType (fun p hp => (hparams p hp).names_ne)
      (fun p hp => (hparams p hp).type.wellFormed) (fun e he => (htype e he).wellFormed)
      (fun g hg => (hfields g hg).names_ne) (fun g hg => (hfields g hg).type.wellFormed)
      (fun d hd => (hdecls d hd).wellFormed),
    .recordType (fun p hp => (hparams p hp).type.placed) (fun e he => (htype e he).placed)
      (fun g hg => (hfields g hg).type.placed) (fun d hd => (hdecls d hd).placed)⟩

theorem formed_moduleBlock (hinner : inner.Forms limit levels) {d : Decl Concrete.Expr}
    (h : inner.moduleBlock.Returns c d c') : Concrete.Decl.Formed limit levels d := by
  simp only [moduleBlock, returns_bind_iff, returns_pure_iff] at h
  obtain ⟨_, _, -, q, c₂, hq, ps, c₃, hps, _, _, -, ds, c₅, hds, _, _, -, rfl, -⟩ := h
  have hparams := formed_params hinner hps
  obtain ⟨hlevels, hds⟩ := hinner.decls _ _ _ hds
  obtain ⟨k, rfl⟩ := Nat.exists_eq_add_one.2 hlevels
  exact ⟨.moduleBlock (returns_qualifiedName hq).1 (fun p hp => (hparams p hp).names_ne)
      (fun p hp => (hparams p hp).type.wellFormed) (fun d hd => (hds d hd).wellFormed),
    .moduleBlock (fun p hp => (hparams p hp).type.placed) (fun d hd => (hds d hd).placed)⟩

theorem formed_clause (hinner : inner.Forms limit levels) (hat : c.token ≠ .kwRecord)
    {d : Decl Concrete.Expr} (h : inner.clause.Returns c d c') :
    Concrete.Decl.Formed limit levels d := by
  simp only [clause, returns_bind_iff, returns_start_iff] at h
  obtain ⟨_, _, ⟨rfl, rfl⟩, lhs, c₁, hlhs, ws, c₂, hws, w, c₃, hw, rhs, c₄, hrhs, h⟩ := h
  split at h
  · simp at h
  · rename_i hdefined
    simp only [returns_bind_iff, returns_pure_iff] at h
    obtain ⟨locals, c₅, hlocals, _, _, -, rfl, -⟩ := h
    obtain ⟨hleft, -, -, hlead⟩ := hinner.expr _ _ _ hlhs
    have hpatterns : ∀ e ∈ ws, e.Formed limit levels := by
      intro e he
      obtain ⟨_, _, -, he⟩ := exists_returns_of_whileAt hws e he
      simp only [returns_bind_iff] at he
      obtain ⟨_, _, -, he⟩ := he
      exact (hinner.expr _ _ _ he).1
    have hscrutinee := fun e he => (hinner.expr _ _ _ (returns_of_mem_optional (a := e) hw he)).1
    have hright := fun e he => (hinner.expr _ _ _ (returns_of_mem_optional (a := e) hrhs he)).1
    obtain ⟨hroom, hds⟩ : (locals.getD [] ≠ [] → 0 < levels) ∧
        ∀ d ∈ locals.getD [], Concrete.Decl.Formed limit (levels - 1) d := by
      rcases returns_optional hlocals with ⟨ds, hds, rfl⟩ | rfl
      · obtain ⟨hlevels, hds⟩ := hinner.decls _ _ _ hds
        exact ⟨fun _ => hlevels, hds⟩
      · exact ⟨fun h => absurd rfl h, by simp⟩
    refine ⟨.clause ?_ hleft.wellFormed (fun e he => (hpatterns e he).wellFormed)
        (fun e he => (hscrutinee e he).wellFormed) (fun e he => (hright e he).wellFormed) ?_ hroom
        (fun d hd => (hds d hd).wellFormed),
      .clause (by simpa using hleft.placed) (fun e he => (hpatterns e he).placed)
        (fun e he => (hscrutinee e he).placed) (fun e he => (hright e he).placed)
        (fun d hd => (hds d hd).placed)⟩
    · exact Bool.eq_false_iff.2 fun h => hat (hlead h)
    · cases w <;> cases rhs <;> simp_all

end Inner

theorem formed_importModule {d : Decl Concrete.Expr} (h : importModule.Returns c d c') :
    Concrete.Decl.Formed limit levels d := by
  simp only [importModule, returns_bind_iff] at h
  obtain ⟨keyword, c₁, -, h⟩ := h
  obtain ⟨kind, c₂, h⟩ : ∃ kind c₂, Returns (do
      let name ← qualifiedName "a module name"
      return .importModule (← spanFrom keyword.span.start) kind name) c₂ d c' := by
    split at h
    · obtain ⟨both, c₂, -, h⟩ := returns_bind_iff.1 h
      cases both
      · exact ⟨_, _, h⟩
      · exact ⟨_, _, h⟩
    · exact ⟨_, _, h⟩
  simp only [returns_bind_iff, returns_pure_iff] at h
  obtain ⟨q, c₃, hq, _, _, -, rfl, -⟩ := h
  exact ⟨.importModule (returns_qualifiedName hq).1, .importModule⟩

theorem formed_fixityDeclaration {options : Options} {assoc : Associativity}
    {d : Decl Concrete.Expr} (h : (fixityDeclaration options assoc).Returns c d c') :
    Concrete.Decl.Formed options.maxPrecedence levels d := by
  simp only [fixityDeclaration, precedence, returns_bind_iff, returns_look_iff,
    returns_pure_iff] at h
  obtain ⟨_, _, -, n, c₂, ⟨t, _, -, hn⟩, ns, c₃, hns, _, _, -, rfl, -⟩ := h
  split at hn
  · rename_i value
    obtain ⟨_, _, -, hn⟩ := returns_bind_iff.1 hn
    split at hn
    · rename_i hle
      obtain ⟨rfl, -⟩ := returns_pure_iff.1 hn
      exact ⟨.fixity hle value.toNat_lt (returns_names_ne_nil hns), .fixity⟩
    · simp at hn
  · simp at hn

namespace Inner

variable {inner : Inner} {options : Options}

theorem formed_declaration (hinner : inner.Forms options.maxPrecedence levels)
    {d : Decl Concrete.Expr} (h : (inner.declaration options).Returns c d c') :
    Concrete.Decl.Formed options.maxPrecedence levels d := by
  simp only [declaration, returns_bind_iff, returns_look_iff] at h
  obtain ⟨_, _, ⟨rfl, rfl⟩, h⟩ := h
  split at h
  · exact formed_dataType hinner h
  · exact formed_recordType hinner h
  · exact formed_moduleBlock hinner h
  · exact formed_importModule h
  · exact formed_importModule h
  · exact formed_fixityDeclaration h
  · simp at h
  · simp at h
  · simp only [signatureOrClause, returns_bind_iff, returns_look_iff] at h
    obtain ⟨_, _, ⟨rfl, rfl⟩, h⟩ := h
    split at h
    · simp only [ascription, returns_bind_iff] at h
      obtain ⟨_, _, -, h⟩ := h
      obtain ⟨g, hg, rfl⟩ := returns_map_iff.1 h
      have hg := formed_signature hinner hg
      exact ⟨.ascription hg.names_ne hg.type.wellFormed, .ascription hg.type.placed⟩
    · exact formed_clause hinner ‹_› h
    · simp only [returns_bind_iff] at h
      obtain ⟨_, _, -, h⟩ := h
      simp at h

theorem formed_member (hinner : inner.Forms options.maxPrecedence levels) {m : Member}
    (h : (inner.member options).Returns c m c') : m.Formed options.maxPrecedence levels := by
  simp only [member, returns_bind_iff, returns_look_iff] at h
  obtain ⟨_, _, ⟨rfl, rfl⟩, h⟩ := h
  split at h
  · obtain ⟨_, _, -, h⟩ := returns_bind_iff.1 h
    obtain ⟨n, -, rfl⟩ := returns_map_iff.1 h
    exact ⟨by simp, by simp⟩
  · obtain ⟨_, _, -, h⟩ := returns_bind_iff.1 h
    obtain ⟨g, hg, rfl⟩ := returns_map_iff.1 h
    refine ⟨?_, by simp⟩
    rintro _ ⟨⟩
    exact formed_signature hinner hg
  · obtain ⟨d, hd, rfl⟩ := returns_map_iff.1 h
    refine ⟨by simp, ?_⟩
    rintro _ ⟨⟩
    exact formed_declaration hinner hd

/-- What the parsers for `levels` levels give is formed. -/
theorem forms (options : Options) :
    ∀ levels, (Parser.inner options levels).Forms options.maxPrecedence levels := by
  intro levels
  induction levels with
  | zero =>
    have hfail : ∀ {α : Type} {c c' : Cursor} {a : α},
        ¬ (failHere (.nestingTooDeep options.maxNesting) : Parser α).Returns c a c' :=
      not_returns_failHere
    exact ⟨fun _ _ _ h => absurd h hfail, fun _ _ _ h => absurd h hfail,
      fun _ _ _ h => absurd h hfail, fun _ _ _ h => absurd h hfail⟩
  | succ levels ih =>
    refine ⟨fun c e c' h => formed_expression ih h, fun c ds c' h => ⟨levels.succ_pos, ?_⟩,
      fun c gs c' h => ⟨levels.succ_pos, ?_⟩, fun c ms c' h => ⟨levels.succ_pos, ?_⟩⟩
    · intro d hd
      obtain ⟨_, _, hd⟩ := exists_returns_of_block h d hd
      exact formed_declaration ih hd
    · intro g hg
      obtain ⟨_, _, hg⟩ := exists_returns_of_block h g hg
      exact formed_constructorSignature ih hg
    · intro m hm
      obtain ⟨_, _, hm⟩ := exists_returns_of_block h m hm
      exact formed_member ih hm

end Inner

/-- The declarations that a file gives are formed, whatever problems it has. -/
theorem file_formed (options : Options) (c : Cursor) : ∀ d ∈ (file options c).1,
    Concrete.Decl.Formed options.maxPrecedence (options.maxNesting - 1) d := by
  intro d hd
  cases hr : ((inner options options.maxNesting).decls c).1.result with
  | error problem => simp [file, Report.settle, hr] at hd
  | ok ds =>
    replace hd : d ∈ ds := by simpa [file, Report.settle, hr] using hd
    exact ((Inner.forms options options.maxNesting).decls c ds _ ⟨hr, rfl⟩).2 d hd

end Parser

end Offside
