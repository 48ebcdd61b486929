-- SUMMARY: What a report gives and which problems it has: one lemma for each combinator.
import Offside.Report

/-! # Outcomes of a report

The value that a computation gives, `Gives` if it records nothing on the way, and
`Within P` if `P` holds of every problem of it, recorded or final. What holds of
the value either way is said of an `Outcome`. -/

namespace Offside

namespace Report

variable {α β : Type} {P : Diagnostic → Prop} {r : Report α} {a : α}

/-! ## Outcomes -/

/-- A way to say what a computation gives, one in which a step gives its value to
the next one. -/
structure Outcome (O : {α : Type} → Report α → α → Prop) : Prop where
  bind_iff {α β : Type} {r : Report α} {next : α → Report β} {b : β} :
    O (r >>= next) b ↔ ∃ a, O r a ∧ O (next a) b
  pure_iff {α : Type} {a b : α} : O (pure b) a ↔ b = a
  raise_iff {α : Type} {result : Except Diagnostic α} {a : α} :
    O (raise result) a ↔ result = .ok a

namespace Outcome

variable {O : {α : Type} → Report α → α → Prop}

theorem map_iff (hO : Outcome O) {f : α → β} {b : β} :
    O (f <$> r) b ↔ ∃ a, O r a ∧ f a = b := by
  change O (r >>= fun a => pure (f a)) b ↔ _
  simp only [hO.bind_iff, hO.pure_iff]

theorem not_fail (hO : Outcome O) {d : Diagnostic} : ¬ O (fail d) a := by
  change ¬ O (raise (.error d)) a
  simp [hO.raise_iff]

end Outcome

/-! ## Reports that give a value -/

theorem result_bind_iff {next : α → Report β} {b : β} :
    (r >>= next).result = .ok b ↔ ∃ a, r.result = .ok a ∧ (next a).result = .ok b := by
  obtain ⟨ds, result⟩ := r
  cases result <;> simp [bind, andThen]

theorem result_bind_of_ok {next : α → Report β} (h : r.result = .ok a) :
    (r >>= next).result = (next a).result := by
  obtain ⟨ds, result⟩ := r
  obtain rfl : result = .ok a := h
  rfl

@[simp] theorem result_fail {d : Diagnostic} : (fail d : Report α).result = .error d := rfl

@[simp] theorem result_noted (value : α × List Diagnostic) : (noted value).result = .ok value.1 := rfl

@[simp] theorem result_raise (result : Except Diagnostic α) : (raise result).result = result := rfl

@[simp] theorem result_defer : r.defer.result = .ok r.result := rfl

theorem outcome_result : Outcome fun r a => r.result = .ok a :=
  ⟨result_bind_iff, by simp, by simp⟩

theorem result_map_iff {f : α → β} {b : β} :
    (f <$> r).result = .ok b ↔ ∃ a, r.result = .ok a ∧ f a = b :=
  outcome_result.map_iff

theorem settle_fst_eq_some : r.settle.1 = some a ↔ r.result = .ok a := by
  obtain ⟨ds, result⟩ := r
  cases result <;> simp [settle]

/-- A failure that is kept and raised at once. -/
theorem defer_bind_raise {next : α → Report β} :
    (r.defer >>= fun result => raise result >>= next) = (r >>= next) := by
  obtain ⟨ds, result⟩ := r
  cases result <;> simp [bind, andThen, defer, raise]

/-! ## Reports without problems -/

/-- The computation gives `a` and records no problem. -/
def Gives (r : Report α) (a : α) : Prop := r = ⟨[], .ok a⟩

theorem gives_bind_iff {next : α → Report β} {b : β} :
    (r >>= next).Gives b ↔ ∃ a, r.Gives a ∧ (next a).Gives b := by
  obtain ⟨ds, result⟩ := r
  cases result with
  | error d => simp [Gives, bind, andThen]
  | ok a =>
    cases hnext : next a with
    | mk ds' result' =>
      simp only [Gives, bind, andThen, hnext, mk.injEq, List.append_eq_nil_iff, Except.ok.injEq]
      constructor
      · rintro ⟨⟨rfl, rfl⟩, rfl⟩
        exact ⟨a, ⟨rfl, rfl⟩, hnext⟩
      · rintro ⟨_, ⟨rfl, rfl⟩, hb⟩
        rw [hnext] at hb
        obtain ⟨rfl, rfl⟩ := mk.inj hb
        exact ⟨⟨rfl, rfl⟩, rfl⟩

@[simp] theorem gives_pure_iff {b : α} : (pure b : Report α).Gives a ↔ b = a := by
  simp [Gives, pure]

@[simp] theorem not_gives_fail {d : Diagnostic} : ¬ (fail d : Report α).Gives a := by
  simp [Gives, fail]

@[simp] theorem gives_raise_iff {result : Except Diagnostic α} :
    (raise result).Gives a ↔ result = .ok a := by
  simp [Gives, raise]

theorem outcome_gives : Outcome Gives := ⟨gives_bind_iff, gives_pure_iff, gives_raise_iff⟩

@[simp] theorem gives_noted_iff {value : α × List Diagnostic} :
    (noted value).Gives a ↔ value = (a, []) := by
  obtain ⟨b, ds⟩ := value
  simp [Gives, noted, and_comm]

@[simp] theorem gives_defer_iff {result : Except Diagnostic α} :
    r.defer.Gives result ↔ r = ⟨[], result⟩ := by
  obtain ⟨ds, result'⟩ := r
  simp [Gives, defer]

theorem settle_eq_iff {o : Option α} : r.settle = (o, []) ↔ ∃ a, o = some a ∧ r.Gives a := by
  obtain ⟨ds, result⟩ := r
  cases result with
  | error d => simp [settle, Gives]
  | ok a =>
    simp only [settle, Prod.mk.injEq, Gives, mk.injEq, Except.ok.injEq]
    constructor
    · rintro ⟨rfl, rfl⟩
      exact ⟨a, rfl, rfl, rfl⟩
    · rintro ⟨_, rfl, rfl, rfl⟩
      exact ⟨rfl, rfl⟩

/-! ## Problems -/

/-- All problems of a report are such that `P` holds. -/
structure Within (P : Diagnostic → Prop) (r : Report α) : Prop where
  recorded : ∀ d ∈ r.diagnostics, P d
  stopped : ∀ d, r.result = .error d → P d

namespace Within

theorem pure (a : α) : (pure a : Report α).Within P := ⟨by simp, by simp⟩

theorem fail {d : Diagnostic} (h : P d) : (fail d : Report α).Within P :=
  ⟨by simp [Report.fail], by rintro _ ⟨⟩; exact h⟩

/-- A report with the same problems. -/
theorem transfer {r' : Report β} (hr : r.Within P) (hrecorded : r'.diagnostics = r.diagnostics)
    (hstopped : ∀ d, r'.result = .error d → r.result = .error d) : r'.Within P :=
  ⟨hrecorded ▸ hr.recorded, fun d hd => hr.stopped d (hstopped d hd)⟩

theorem bindValue {next : α → Report β} (hr : r.Within P)
    (hnext : ∀ a, r.result = .ok a → (next a).Within P) : (r >>= next).Within P := by
  obtain ⟨ds, result⟩ := r
  cases result with
  | error d =>
    refine ⟨hr.recorded, ?_⟩
    rintro _ ⟨⟩
    exact hr.stopped d rfl
  | ok a =>
    have ha := hnext a rfl
    refine ⟨fun d hd => ?_, ha.stopped⟩
    rcases List.mem_append.1 hd with hd | hd
    · exact hr.recorded d hd
    · exact ha.recorded d hd

theorem bind {next : α → Report β} (hr : r.Within P) (hnext : ∀ a, (next a).Within P) :
    (r >>= next).Within P :=
  hr.bindValue fun a _ => hnext a

theorem map {f : α → β} (hr : r.Within P) : (f <$> r).Within P :=
  hr.bind fun _ => .pure _

theorem noted {value : α × List Diagnostic} (h : ∀ d ∈ value.2, P d) : (noted value).Within P :=
  ⟨h, nofun⟩

theorem raise {result : Except Diagnostic α} (h : ∀ d, result = .error d → P d) :
    (raise result).Within P :=
  ⟨by simp [Report.raise], h⟩

theorem settle (hr : r.Within P) : ∀ d ∈ r.settle.2, P d := by
  obtain ⟨ds, result⟩ := r
  cases result with
  | ok a => exact hr.recorded
  | error d =>
    intro d' hd'
    rcases List.mem_append.1 hd' with hd' | hd'
    · exact hr.recorded d' hd'
    · exact List.mem_singleton.1 hd' ▸ hr.stopped d rfl

/-- A failure that is kept as a value is raised by what comes after it. -/
theorem deferBind {next : Except Diagnostic α → Report β} (hr : r.Within P)
    (hnext : ∀ result, (∀ d, result = .error d → P d) → (next result).Within P) :
    (r.defer >>= next).Within P := by
  have hdefer : r.defer.Within P := ⟨hr.recorded, nofun⟩
  -- What is kept is how the report ended.
  refine hdefer.bindValue fun result hresult => hnext result ?_
  obtain rfl : r.result = result := by simpa [defer] using hresult
  exact hr.stopped

end Within

end Report

end Offside
