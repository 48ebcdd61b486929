-- SUMMARY: Computations that record diagnostics and may fail with one.
import Offside.Diagnostic

/-! # Reports

A `Report` is the outcome of a computation that goes on after most problems. It
holds the problems recorded on the way and, at the end, a value or the problem
that stopped it. What is recorded is never lost, whether the computation fails
later or not. -/

namespace Offside

/-- A value or a failure, after some recorded diagnostics. -/
structure Report (α : Type) where
  diagnostics : List Diagnostic
  result : Except Diagnostic α

namespace Report

variable {α β : Type}

/-- Go on with a value; a failure ends the computation. -/
def andThen (r : Report α) (next : α → Report β) : Report β :=
  match r.result with
  | .error d => ⟨r.diagnostics, .error d⟩
  | .ok a => ⟨r.diagnostics ++ (next a).diagnostics, (next a).result⟩

instance : Monad Report where
  pure a := ⟨[], .ok a⟩
  bind := andThen

/-- Stop with a problem. -/
def fail (d : Diagnostic) : Report α := ⟨[], .error d⟩

/-- Go on with a value that comes with recorded problems. -/
def noted (value : α × List Diagnostic) : Report α := ⟨value.2, .ok value.1⟩

/-- Record the problem of a computation that failed, and go on without its
value. -/
def settle (r : Report α) : Option α × List Diagnostic :=
  match r.result with
  | .ok a => (some a, r.diagnostics)
  | .error d => (none, r.diagnostics ++ [d])

/-- Keep a failure as a value, to be raised later by `raise`. -/
def defer (r : Report α) : Report (Except Diagnostic α) :=
  ⟨r.diagnostics, .ok r.result⟩

/-- Go on with a value, or stop with a problem found before. -/
def raise (result : Except Diagnostic α) : Report α := ⟨[], result⟩

@[simp] theorem diagnostics_pure (a : α) : (pure a : Report α).diagnostics = [] := rfl

@[simp] theorem result_pure (a : α) : (pure a : Report α).result = .ok a := rfl

end Report

end Offside
