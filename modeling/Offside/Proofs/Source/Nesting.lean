-- SUMMARY: The parser keeps to the nesting limit, so resolution never runs into it.
import Offside.Proofs.Concrete.Depth
import Offside.Proofs.Fixity.Problems
import Offside.Proofs.Parser.Formed
import Offside.Source

/-! # The nesting limit

The parser and the resolution of operators count levels separately, against the
same limit. Every step of resolution that gives up a level goes into an
expression for which the parser gave up one too, so a parsed tree always leaves
resolution a level: `parse_nesting`. -/

namespace Offside

/-- Whether the problem is that something nests too deep. -/
def Problem.isNesting : Problem → Bool
  | .nestingTooDeep _ | .chainTooDeep _ => true
  | _ => false

namespace Fixity

open Concrete

/-- A problem other than the nesting of expressions. -/
def IsShallow (d : Diagnostic) : Prop := ∀ limit, d.problem ≠ .nestingTooDeep limit

theorem isShallow_of_isGrouping {d : Diagnostic} (h : d.problem.isGrouping = true) :
    IsShallow d := by
  intro limit hproblem
  rw [hproblem] at h
  cases h

theorem IsShallow.chainTooDeep {d : Diagnostic} (h : IsShallow d)
    (hnesting : d.problem.isNesting = true) : ∃ operator, d.problem = .chainTooDeep operator := by
  obtain ⟨problem, span⟩ := d
  cases problem with
  | nestingTooDeep limit => exact absurd rfl (h limit)
  | chainTooDeep operator => exact ⟨operator, rfl⟩
  | _ => cases hnesting

/-- A tree no deeper than the levels left never runs out of them. -/
theorem faults_isShallow (limit : Nat) : Faults limit IsShallow (fun n e => exprDepth e ≤ n)
    (fun n a => atomDepth a ≤ n) (fun n d => declDepth d ≤ n) where
  deep {e} he := absurd (exprDepth_pos e) (by omega)
  run he := by
    rw [exprDepth, Nat.add_le_add_iff_right, atomsDepth_le_iff] at he
    exact ⟨fun _ h => isShallow_of_isGrouping h, he⟩
  arrow he := by
    rw [exprDepth, Nat.add_le_add_iff_right, Nat.max_le, atomsDepth_le_iff] at he
    exact ⟨fun _ h => isShallow_of_isGrouping h, he⟩
  bind he := by
    rwa [exprDepth, Nat.add_le_add_iff_right, Nat.max_le, bindingsDepth_le_iff] at he
  letIn he := by
    rwa [exprDepth, Nat.add_le_add_iff_right, Nat.max_le, declsDepth_le_iff] at he
  pattern _ _ h := isShallow_of_isGrouping (isCulprit_ensurePattern _ _ h).isGrouping
  atom _ _ h := isShallow_of_isGrouping h
  operator _ _ _ h := isShallow_of_isGrouping h
  paren ha := by rwa [atomDepth] at ha
  param ha := by rwa [atomDepth, paramDepth_eq] at ha
  record ha := by rwa [atomDepth, assignmentsDepth_le_iff] at ha
  tail ha := by rwa [atomDepth] at ha
  dataType hd := by
    rw [declDepth, Nat.max_le, headerDepth_le_iff, signaturesDepth_le_iff] at hd
    exact and_assoc.1 hd
  emptyData hd := by rwa [declDepth, headerDepth_le_iff] at hd
  recordType hd := by
    rw [declDepth, Nat.max_le, Nat.max_le, headerDepth_le_iff, signaturesDepth_le_iff,
      declsDepth_le_iff] at hd
    exact and_assoc.1 hd
  moduleBlock hd := by
    rwa [declDepth, Nat.max_le, paramsDepth_le_iff, declsDepth_le_iff] at hd
  ascription hd := by rwa [declDepth] at hd
  clause hd := by
    rwa [declDepth, Nat.max_le, Nat.max_le, Nat.max_le, Nat.max_le, exprsDepth_le_iff,
      exprsDepth_le_iff, optionDepth_le_iff, optionDepth_le_iff, declsDepth_le_iff] at hd
  fixity _ _ _ _ h := isShallow_of_isGrouping h

end Fixity

namespace Source

/-- The declarations of a text nest no deeper than the limit, so resolving them
never finds that they do. What resolution may find too deep is a chain of
operators. -/
theorem parse_nesting (options : Options) (source : String) :
    (∀ d ∈ (declarations options source).1, Concrete.declDepth d ≤ options.maxNesting) ∧
    (∀ d ∈ (Fixity.resolveFile options.maxNesting (declarations options source).1).2,
      (∀ limit, d.problem ≠ .nestingTooDeep limit) ∧
      (d.problem.isNesting = true → ∃ operator, d.problem = .chainTooDeep operator)) ∧
    ∀ d ∈ (parse options source).diagnostics, d.problem.isNesting = true →
      d ∈ (declarations options source).2 ∨ ∃ operator, d.problem = .chainTooDeep operator := by
  have hdepth : ∀ d ∈ (declarations options source).1,
      Concrete.declDepth d ≤ options.maxNesting := by
    intro d hd
    -- The file is a block, which takes a level for itself.
    have hformed := Parser.file_formed options _ d hd
    exact Nat.le_trans ((Concrete.depth_le _).decl d _ hformed.wellFormed) (Nat.sub_le _ 1)
  have hshallow := (Fixity.faults_isShallow options.maxNesting).file hdepth
  refine ⟨hdepth, fun d hd => ⟨hshallow d hd, (hshallow d hd).chainTooDeep⟩, ?_⟩
  intro d hd hnesting
  have hd : d ∈ (declarations options source).2 ++
      (Fixity.resolveFile options.maxNesting (declarations options source).1).2 :=
    (Diagnostic.sort_perm _).mem_iff.1 hd
  rcases List.mem_append.1 hd with hd | hd
  · exact .inl hd
  · exact .inr ((hshallow d hd).chainTooDeep hnesting)

end Source

end Offside
