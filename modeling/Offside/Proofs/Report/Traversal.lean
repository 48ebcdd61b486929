-- SUMMARY: Computations over one state with a depth and recorded problems, and the reports they amount to.
import Offside.Proofs.Report.Outcome

/-! # Traversals

A report says what a computation adds. A traversal is a computation that
changes a state as it goes: its focus, the depth at which it is nested, and the
problems recorded so far. When it stops with a problem the state stays as it is
at that moment, so whatever has been changed has to be undone before that.
`Reports` says that a traversal amounts to a report: the depth is what it was
before, and all it leaves in the state is the focus and what the report records.
Every combinator has one rule. -/

namespace Offside

/-- The state of a traversal. -/
structure Traversal.State (κ : Type) where
  focus : κ
  depth : Nat
  diagnostics : List Diagnostic

/-- A computation over such a state, which may stop with a problem. -/
def Traversal (κ α : Type) : Type := Traversal.State κ → Except Diagnostic α × Traversal.State κ

namespace Report

variable {α β γ : Type}

instance : LawfulMonad Report := LawfulMonad.mk' Report
  (fun r => by
    obtain ⟨ds, result⟩ := r
    cases result <;> simp [Functor.map, andThen])
  (fun _ _ => rfl)
  (fun r f g => by
    obtain ⟨ds, result⟩ := r
    cases result with
    | error d => rfl
    | ok a =>
      cases h : f a with
      | mk ds' result' => cases result' <;> simp [bind, andThen, h])

end Report

namespace Traversal

variable {κ α β : Type}

/-! ## Combinators -/

/-- Go on with a value. -/
def andThen (w : Traversal κ α) (next : α → Traversal κ β) : Traversal κ β := fun s =>
  match w s with
  | (.error d, s₁) => (.error d, s₁)
  | (.ok a, s₁) => next a s₁

instance : Monad (Traversal κ) where
  pure a := fun s => (.ok a, s)
  bind := andThen

/-- Go on with a value, or stop with a problem found before. -/
def raise (result : Except Diagnostic α) : Traversal κ α := fun s => (result, s)

/-- Read something off the state. -/
def look (f : State κ → α) : Traversal κ α := fun s => (.ok (f s), s)

/-- Go on with how a traversal ends, be it a value or a problem. -/
def attempt (w : Traversal κ α) : Traversal κ (Except Diagnostic α) := fun s =>
  let (result, s₁) := w s
  (.ok result, s₁)

/-- Record the problem of a traversal that fails, and go on without its value. -/
def settle (w : Traversal κ α) : Traversal κ (Option α) := fun s =>
  match w s with
  | (.ok a, s₁) => (.ok (some a), s₁)
  | (.error d, s₁) => (.ok none, { s₁ with diagnostics := s₁.diagnostics ++ [d] })

/-- Run `body` one level deeper, and come back however it ends. At depth `limit`
it is not run, and the problem is at `place`. -/
def nested (limit : Nat) (place : κ → Span) (body : Traversal κ α) : Traversal κ α := fun s =>
  if limit ≤ s.depth then (.error ((Problem.nestingTooDeep limit).at (place s.focus)), s)
  else
    let (result, s₁) := body { s with depth := s.depth + 1 }
    (result, { s₁ with depth := s₁.depth - 1 })

/-! ## Reports -/

/-- Between `s` and `s'` the depth has not changed, and nothing that was recorded
has been lost. -/
structure State.Keeps (s s' : State κ) : Prop where
  depth : s'.depth = s.depth
  recorded : s.diagnostics <+: s'.diagnostics

/-- From the focus `k` at `depth` the traversal amounts to the report `r` and
leaves the focus at `k'`, whatever has been recorded before. -/
def Reports (w : Traversal κ α) (depth : Nat) (k : κ) (r : Report α) (k' : κ) : Prop :=
  ∀ ds, w ⟨k, depth, ds⟩ = (r.result, ⟨k', depth, ds ++ r.diagnostics⟩)

namespace Reports

variable {w : Traversal κ α} {depth : Nat} {k k₁ k₂ : κ} {r : Report α}

theorem pure (a : α) : (pure a : Traversal κ α).Reports depth k (pure a) k := fun ds => by
  simp [Pure.pure]

theorem raise (result : Except Diagnostic α) :
    (raise result : Traversal κ α).Reports depth k (.raise result) k := fun ds => by
  simp [Traversal.raise, Report.raise]

theorem of_eq {r' : Report α} (h : w.Reports depth k r k₁) (hr : r = r') :
    w.Reports depth k r' k₁ := hr ▸ h

theorem bind {next : α → Traversal κ β} {f : α → Report β} (h : w.Reports depth k r k₁)
    (hnext : ∀ a, r.result = .ok a → (next a).Reports depth k₁ (f a) k₂)
    (hstop : ∀ d, r.result = .error d → k₂ = k₁) : (w >>= next).Reports depth k (r >>= f) k₂ := by
  intro ds
  change w.andThen next _ = _
  rw [andThen, h ds]
  obtain ⟨ds', result⟩ := r
  cases result with
  | error d =>
    obtain rfl := hstop d rfl
    rfl
  | ok a => simp [hnext a rfl _, Bind.bind, Report.andThen]

/-- Reading the state leaves it as it is. -/
theorem look {f : State κ → α} {next : α → Traversal κ β} {r : Report β}
    (h : ∀ ds, (next (f ⟨k, depth, ds⟩)).Reports depth k r k₁) :
    (look f >>= next).Reports depth k r k₁ := fun ds => h ds ds

theorem attempt (h : w.Reports depth k r k₁) : w.attempt.Reports depth k r.defer k₁ := fun ds => by
  simp [Traversal.attempt, h ds, Report.defer]

theorem settle (h : w.Reports depth k r k₁) : w.settle.Reports depth k (.noted r.settle) k₁ := by
  intro ds
  obtain ⟨ds₁, result⟩ := r
  rw [Traversal.settle, h ds]
  cases result with
  | ok a => rfl
  | error d => simp [Report.settle, Report.noted]

/-- At the limit nothing is run. -/
theorem nested_stop {limit : Nat} {place : κ → Span} (hle : limit ≤ depth) :
    (nested limit place w).Reports depth k
      (.fail ((Problem.nestingTooDeep limit).at (place k))) k := by
  intro ds
  rw [nested, if_pos hle]
  simp [Report.fail]

/-- Below it the depth comes back. -/
theorem nested_run {limit : Nat} {place : κ → Span} (hlt : depth < limit)
    (h : w.Reports (depth + 1) k r k₁) : (nested limit place w).Reports depth k r k₁ := by
  intro ds
  rw [nested, if_neg (Nat.not_le.2 hlt), h ds]
  rfl

theorem keeps {s : State κ} (h : w.Reports s.depth s.focus r k₁) : s.Keeps (w s).2 := by
  have hrun : w s = _ := h s.diagnostics
  rw [hrun]
  exact ⟨rfl, List.prefix_append _ _⟩

end Reports

end Traversal

end Offside
