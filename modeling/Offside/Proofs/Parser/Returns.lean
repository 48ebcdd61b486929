-- SUMMARY: Parses that give a value, problems recorded or not, and how each parser combinator takes part in one.
import Mathlib.Data.List.Basic
import Offside.Proofs.Parser.Accepts

/-! # Parses that give a value

A parse may record problems and give a value all the same. `Parser.Returns p c a c'`
says that `p`, started at `c`, gives `a` and stops at `c'`, whatever it records.
Every combinator has one lemma for it. -/

namespace Offside

namespace Parser

variable {α β : Type} {p : Parser α} {c c' : Cursor} {a : α}

/-- `p` gives `a` and stops at `c'`. -/
def Returns (p : Parser α) (c : Cursor) (a : α) (c' : Cursor) : Prop :=
  (p c).1.result = .ok a ∧ (p c).2 = c'

/-! ## Sequencing -/

theorem returns_bind_iff {q : α → Parser β} {b : β} :
    (p >>= q).Returns c b c' ↔ ∃ a c₁, p.Returns c a c₁ ∧ (q a).Returns c₁ b c' := by
  simp only [Returns, bind, andThen]
  cases hp : p c with
  | mk r c₁ =>
    obtain ⟨ds, result⟩ := r
    cases result with
    | error d => simp
    | ok a => simp

@[simp] theorem returns_pure_iff {b : α} :
    (pure b : Parser α).Returns c a c' ↔ b = a ∧ c = c' := by
  simp [Returns, pure]

theorem returns_map_iff {f : α → β} {b : β} :
    (f <$> p).Returns c b c' ↔ ∃ a, p.Returns c a c' ∧ f a = b := by
  change (p >>= fun a => pure (f a)).Returns c b c' ↔ _
  simp only [returns_bind_iff, returns_pure_iff]
  constructor
  · rintro ⟨a, c₁, h, rfl, rfl⟩
    exact ⟨a, h, rfl⟩
  · rintro ⟨a, h, rfl⟩
    exact ⟨a, c', h, rfl, rfl⟩

/-! ## Looking, failing and moving -/

@[simp] theorem returns_look_iff {f : Cursor → α} :
    (look f).Returns c a c' ↔ f c = a ∧ c = c' := by
  simp [Returns, look]

@[simp] theorem returns_start_iff {n : Nat} :
    start.Returns c n c' ↔ c.current.span.start = n ∧ c = c' := returns_look_iff

@[simp] theorem returns_spanFrom_iff {n : Nat} {span : Span} :
    (spanFrom n).Returns c span c' ↔ c.spanFrom n = span ∧ c = c' := returns_look_iff

@[simp] theorem not_returns_fail {d : Diagnostic} : ¬ (fail d : Parser α).Returns c a c' := by
  simp [Returns, fail, Report.fail]

@[simp] theorem not_returns_failHere {problem : Problem} :
    ¬ (failHere problem : Parser α).Returns c a c' := by
  simp [Returns, failHere, Report.fail]

@[simp] theorem not_returns_unexpected {expected : String} :
    ¬ (unexpected expected : Parser α).Returns c a c' := by
  simp [Returns, unexpected, Report.fail]

@[simp] theorem returns_record_iff {ds : List Diagnostic} {u : Unit} :
    (record ds).Returns c u c' ↔ c = c' := by
  simp [Returns, record, Report.noted]

@[simp] theorem returns_move_iff {f : Cursor → Cursor} {u : Unit} :
    (move f).Returns c u c' ↔ f c = c' := by
  simp [Returns, move]

theorem returns_eat_iff {t : Token} {b : Bool} :
    (eat t).Returns c b c' ↔
      (c.token = t ∧ b = true ∧ c.advance = c') ∨ (c.token ≠ t ∧ b = false ∧ c = c') := by
  by_cases h : c.token = t <;> simp [Returns, eat, Cursor.eat?, Cursor.isAt, h, eq_comm]

theorem returns_optional {t : Token} {o : Option α} (h : (optional t p).Returns c o c') :
    (∃ a, p.Returns c.advance a c' ∧ o = some a) ∨ o = none := by
  simp only [optional, returns_bind_iff, returns_eat_iff] at h
  obtain ⟨b, c₁, ⟨-, rfl, rfl⟩ | ⟨-, rfl, rfl⟩, h⟩ := h
  · obtain ⟨a, ha, rfl⟩ := returns_map_iff.1 h
    exact .inl ⟨a, ha, rfl⟩
  · exact .inr (returns_pure_iff.1 h).1.symm

/-- A value in an optional part was given by its parser. -/
theorem returns_of_mem_optional {t : Token} {o : Option α} (h : (optional t p).Returns c o c')
    (ha : a ∈ o) : p.Returns c.advance a c' := by
  rcases returns_optional h with ⟨b, hb, rfl⟩ | rfl
  · obtain rfl : b = a := by simpa using ha
    exact hb
  · simp at ha

/-! ## Repetition -/

section

variable {more : Cursor → Bool} {as : List α}

/-- What the rounds of a repetition give, the repetition gives. -/
theorem returns_whileAt (h : Returns (whileAt more p) c as c') :
    (as = [] ∧ more c = false ∧ c = c') ∨ ∃ a c₁ as', more c = true ∧ p.Returns c a c₁ ∧
      as = a :: as' ∧ ((c₁.ahead.length < c.ahead.length ∧ Returns (whileAt more p) c₁ as' c') ∨
        (as' = [] ∧ c₁ = c')) := by
  rw [Returns, whileAt, whileFrom] at h
  simp only [whileFrom_const] at h
  split at h
  · rename_i hmore
    right
    cases hp : p c with
    | mk r c₁ =>
      obtain ⟨ds, result⟩ := r
      rw [hp] at h
      cases result with
      | error d => simp at h
      | ok a =>
        refine ⟨a, c₁, ?_⟩
        simp only at h
        split at h
        · rename_i hlt
          obtain ⟨hresult, hend⟩ := h
          cases hrest : (whileAt more p c₁).1.result with
          | error d => simp [hrest, Except.map] at hresult
          | ok as' =>
            obtain rfl : a :: as' = as := by simpa [hrest, Except.map] using hresult
            exact ⟨as', hmore, by simp [Returns, hp], rfl, .inl ⟨hlt, hrest, hend⟩⟩
        · obtain ⟨rfl, rfl⟩ : [a] = as ∧ c₁ = c' := by simpa using h
          exact ⟨[], hmore, by simp [Returns, hp], rfl, .inr ⟨rfl, rfl⟩⟩
  · rename_i hmore
    obtain ⟨rfl, rfl⟩ : [] = as ∧ c = c' := by simpa using h
    exact .inl ⟨rfl, by simpa using hmore, rfl⟩

/-- Each value of a repetition was given by one round. -/
theorem exists_returns_of_whileAt (h : Returns (whileAt more p) c as c') :
    ∀ a ∈ as, ∃ c₁ c₂, more c₁ = true ∧ p.Returns c₁ a c₂ := by
  induction hn : c.ahead.length using Nat.strongRecOn generalizing c as with
  | _ n ih =>
    subst hn
    rcases returns_whileAt h with ⟨rfl, -, -⟩ | ⟨a, c₁, as', hmore, ha, rfl, hrest⟩
    · simp
    · intro b hb
      rcases List.mem_cons.1 hb with rfl | hb
      · exact ⟨c, c₁, hmore, ha⟩
      · rcases hrest with ⟨hlt, hrest⟩ | ⟨rfl, -⟩
        · exact ih _ hlt hrest rfl b hb
        · simp at hb

end

/-! ## Items and blocks -/

theorem returns_of_mem_item {o : Option α} (h : (item p).Returns c o c') (ha : a ∈ o) :
    ∃ c₁, p.Returns c a c₁ := by
  simp only [Returns, item] at h
  cases hp : p c with
  | mk r c₁ =>
    obtain ⟨ds, result⟩ := r
    rw [hp] at h
    obtain rfl : result = .ok a := by
      cases result with
      | error d =>
        obtain rfl : none = o := by simpa using h.1
        simp at ha
      | ok b =>
        have hb : some b = o := by
          by_cases hend : atItemEnd c₁ = true <;> simpa [hend] using h.1
        subst hb
        rw [Option.mem_some_iff.1 ha]
    exact ⟨c₁, by simp [Returns, hp]⟩

/-- Each value of a block was given by the parser of its items. -/
theorem exists_returns_of_block {as : List α} (h : (block p).Returns c as c') :
    ∀ a ∈ as, ∃ c₁ c₂, p.Returns c₁ a c₂ := by
  simp only [block, returns_bind_iff, returns_move_iff] at h
  obtain ⟨-, c₁, -, items, c₂, hitems, -, -, -, closed, c₃, -, h⟩ := h
  cases closed with
  | false => simp at h
  | true =>
    obtain ⟨rfl, rfl⟩ := returns_pure_iff.1 h
    intro a ha
    obtain ⟨o, ho, hoa⟩ := List.mem_filterMap.1 ha
    obtain ⟨c₄, c₅, -, hround⟩ := exists_returns_of_whileAt hitems o ho
    simp only [returns_bind_iff, returns_move_iff] at hround
    obtain ⟨-, c₆, -, hitem⟩ := hround
    obtain ⟨c₇, hc₇⟩ := returns_of_mem_item hitem hoa
    exact ⟨c₆, c₇, hc₇⟩

/-! ## Names -/

theorem returns_names_ne_nil {expected : String} {ns : List Name}
    (h : (names expected).Returns c ns c') : ns ≠ [] := by
  simp only [names, returns_bind_iff, returns_pure_iff] at h
  obtain ⟨n, c₁, -, ns', c₂, -, rfl, -⟩ := h
  exact List.cons_ne_nil n ns'

/-- A name read by the parser has segments, and if it has one only, its span is
that of the segment. -/
theorem returns_qualifiedName {expected : String} {q : QualifiedName}
    (h : (qualifiedName expected).Returns c q c') :
    q.segments ≠ [] ∧ ∀ n, q.segments = [n] → q.span = n.span := by
  simp only [qualifiedName, returns_bind_iff, returns_pure_iff] at h
  obtain ⟨n, c₁, -, ns, c₂, -, rfl, -⟩ := h
  refine ⟨List.cons_ne_nil n ns, ?_⟩
  rintro m hm
  obtain ⟨rfl, rfl⟩ := List.cons.inj hm
  rfl

end Parser

end Offside
