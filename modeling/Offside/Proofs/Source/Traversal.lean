-- SUMMARY: No call leaves a trace in the state of the traversal it belongs to.
import Offside.Proofs.Fixity.Traversal
import Offside.Proofs.Parser.Traversal

/-! # Calls without a trace

A file is read with one state, which holds a cursor, a depth and the problems
recorded so far, and resolved with another, which holds a table in place of the
cursor. A call may fail at any depth below it and inside any scope below it, and
the problem is passed on from there. The state does not show it: depth and table
are what they were before the call. -/

namespace Offside

namespace Source

open Traversal (State)

/-- Each production and each part of a file gives back the state with the depth
that it had, the table too, and what had been recorded before comes first. So it
amounts to what the definitions without a state give for that cursor or table,
and from the start to what they give for a file. -/
theorem keeps_walk (options : Options) (limit : Nat) :
    (∀ {α : Type} (production : Parser.Production α) (s : State Cursor),
      let out := production.parser options (options.maxNesting - s.depth) s.focus
      s.Keeps (production.walk options s).2 ∧
      production.walk options s =
        (out.1.result, ⟨out.2, s.depth, s.diagnostics ++ out.1.diagnostics⟩)) ∧
    (∀ {α : Type} (part : Fixity.Part α) (s : State Fixity.Table),
      let r := part.report limit s.focus (limit - s.depth)
      s.Keeps (part.walk limit s).2 ∧ (part.walk limit s).2.focus = s.focus ∧
      part.walk limit s = (r.result, ⟨s.focus, s.depth, s.diagnostics ++ r.diagnostics⟩)) ∧
    (∀ c, ∃ c', Parser.Production.file.walk options ⟨c, 0, []⟩ =
      (.ok (Parser.file options c).1, ⟨c', 0, (Parser.file options c).2⟩)) ∧
    ∀ decls, (Fixity.Part.file decls).walk limit ⟨.empty, 0, []⟩ =
      (.ok (Fixity.resolveFile limit decls).1,
        ⟨.empty, 0, (Fixity.resolveFile limit decls).2⟩) := by
  refine ⟨fun production s => ?_, fun part s => ?_, fun c => ?_, fun decls => ?_⟩
  · have h := production.parses_walk options s.depth s.focus
    exact ⟨h.keeps, h s.diagnostics⟩
  · have h := part.resolves_walk limit s.depth s.focus
    have hrun : part.walk limit s = _ := h s.diagnostics
    exact ⟨h.keeps, congrArg (·.2.focus) hrun, hrun⟩
  · have h := Parser.Production.file.parses_walk options 0 c []
    rw [Nat.sub_zero, Parser.Production.parser_file] at h
    exact ⟨_, h⟩
  · have h := (Fixity.Part.file decls).resolves_walk limit 0 .empty []
    rw [Nat.sub_zero, Fixity.Part.report_file] at h
    exact h

end Source

end Offside
