-- SUMMARY: Layout resolution keeps the tokens of a program and only puts markers between them.
import Mathlib.Data.List.Basic
import Offside.Proofs.Layout.Steps

/-! # Tokens in resolved layout

`LaidOut raws out` says that `out` is `raws` with markers put in, where some
braces have become markers themselves. One step puts out its token in this way,
and so does a whole program. -/

namespace Offside

namespace Layout

/-- Lexemes with markers of blocks between them and for some of their braces. -/
inductive LaidOut : (raws out : List Lexeme) → Prop
  | nil : LaidOut [] []
  | keep {tok raws out} (rest : LaidOut raws out) : LaidOut (tok :: raws) (tok :: out)
  | brace {tok t raws out} (isBrace : tok.token = .lbrace ∨ tok.token = .rbrace)
      (isVirtual : t.isVirtual = true) (rest : LaidOut raws out) :
      LaidOut (tok :: raws) ({ tok with token := t, lineStart := false } :: out)
  | marker {tok t raws out} (isVirtual : t.isVirtual = true) (rest : LaidOut raws out) :
      LaidOut raws (.marker t tok :: out)

namespace LaidOut

variable {raws raws' out out' : List Lexeme}

theorem append (h : LaidOut raws out) (h' : LaidOut raws' out') :
    LaidOut (raws ++ raws') (out ++ out') := by
  induction h with
  | nil => exact h'
  | keep _ ih => exact ih.keep
  | brace isBrace isVirtual _ ih => exact ih.brace isBrace isVirtual
  | marker isVirtual _ ih => exact ih.marker isVirtual

theorem single (tok : Lexeme) : LaidOut [tok] [tok] := nil.keep

theorem ends (count : Nat) (tok : Lexeme) : LaidOut [] (ends count tok) := by
  induction count with
  | zero => exact nil
  | succ count ih => exact ih.marker rfl

/-! ## Steps -/

theorem dedent (tok : Lexeme) (inner : Option Nat) (stack : List Frame) :
    LaidOut [] (dedent tok inner stack).1.lexemes := by
  obtain ⟨closed, left, seps, -, -, -, hseps, hput⟩ := dedent_cases tok inner stack
  rw [hput]
  rcases hseps with rfl | rfl
  · exact (ends _ tok).append nil
  · exact (ends _ tok).append (nil.marker rfl)

theorem putCloser (tok : Lexeme) (stack : List Frame) :
    LaidOut [tok] (putCloser tok stack).1.lexemes := by
  rw [Layout.putCloser]
  split
  · rename_i count kind opening left _
    split
    · rename_i hbrace
      exact (ends count tok).append (nil.brace (.inr hbrace) rfl)
    · exact (ends count tok).append (single tok)
  · rename_i count _ left _ _
    exact (ends count tok).append (single tok)
  · exact single tok

theorem put (tok : Lexeme) (opened : Bool) (stack : List Frame) :
    LaidOut [tok] (put tok opened stack).1.lexemes := by
  rcases put_cases tok opened stack with
    ⟨-, count, left, -, hput⟩ | ⟨-, hput⟩ | ⟨-, -, moved, left, hmoved, hput⟩
  · rw [hput]
    exact (ends count tok).append (single tok)
  · rw [hput]
    exact putCloser tok stack
  · rw [hput]
    have hbefore : LaidOut [] moved.lexemes := by
      rcases hmoved with hmoved | ⟨rfl, -⟩
      · rw [(Prod.mk.inj hmoved).1]
        exact dedent tok none stack
      · exact nil
    exact hbefore.append (single tok)

theorem step (state : State) (tok : Lexeme) : LaidOut [tok] (step state tok).1.lexemes := by
  rcases step_cases state tok with ⟨kind, -, hbrace, hstep⟩ | ⟨-, opened, hstep⟩
  · rw [hstep]
    exact nil.brace (.inl hbrace) rfl
  · rw [hstep]
    have hlead : LaidOut [] (lead state tok) := by
      rw [lead]
      split
      · split
        · exact nil.marker rfl
        · exact (ends 1 tok).marker rfl
      · exact nil
    exact hlead.append (put tok opened (reach state tok))

theorem steps (state : State) (toks : List Lexeme) : LaidOut toks (steps state toks).1.lexemes := by
  induction toks generalizing state with
  | nil => exact nil
  | cons tok toks ih =>
    rw [steps_cons]
    exact (step state tok).append (ih _)

theorem closeAll (eof : Lexeme) (stack : List Frame) : LaidOut [] (closeAll eof stack).lexemes := by
  induction stack with
  | nil => exact nil
  | cons frame stack ih =>
    cases frame with
    | implicit | braced => exact (ends 1 eof).append ih
    | bracket => exact ih

/-- At the end of a program there are markers only, before the end of file. -/
theorem finish (state : State) (eof : Lexeme) :
    ∃ out, (finish state eof).lexemes = out ++ [eof] ∧ LaidOut [] out := by
  obtain ⟨stack, pending⟩ := state
  cases pending with
  | some kind => exact ⟨_, rfl, ((ends 1 eof).marker rfl).append (closeAll eof stack)⟩
  | none => exact ⟨_, rfl, closeAll eof stack⟩

end LaidOut

/-- The program of a text is what comes before its first end of file, less the
comments. -/
theorem program_append {before : List Lexeme} {eof : Lexeme} (heof : eof.token = .eof)
    (hbefore : ∀ tok ∈ before, tok.token ≠ .eof) (after : List Lexeme) :
    program (before ++ eof :: after) = before.filter (!·.token.isComment) := by
  have hkept : (before ++ eof :: after).filter (!·.token.isComment) =
      before.filter (!·.token.isComment) ++ eof :: after.filter (!·.token.isComment) := by
    rw [List.filter_append, List.filter_cons_of_pos (by rw [heof]; rfl)]
  rw [program, hkept, List.takeWhile_append_of_pos]
  · simp [heof]
  · intro tok htok
    simpa using hbefore tok (List.mem_of_mem_filter htok)

/-- A program that ends with its end of file is put out in full before it. -/
theorem resolve_concat {pre : List Lexeme} {eof : Lexeme} (heof : eof.token = .eof)
    (hpre : ∀ tok ∈ pre, tok.token ≠ .eof) :
    (resolve (pre ++ [eof])) = (steps .initial (pre.filter (!·.token.isComment))).1 ++
      finish (steps .initial (pre.filter (!·.token.isComment))).2 eof := by
  obtain ⟨last, hend, hresolve⟩ := resolve_eq_of_end (pre ++ [eof])
  have hfind : (pre ++ [eof]).find? (·.token = .eof) = some eof := by
    rw [List.find?_append, List.find?_eq_none.2]
    · simp [heof]
    · intro tok htok
      simpa using hpre tok htok
  obtain rfl : last = eof := by
    rcases hend with hlast | ⟨hnone, -⟩
    · exact Option.some.inj (hlast.symm.trans hfind)
    · rw [hfind] at hnone
      cases hnone
  rw [hresolve, program_append heof hpre]

/-- In resolved layout the program comes with markers, and the end of file after
them. -/
theorem laidOut_resolve {pre : List Lexeme} {eof : Lexeme} (heof : eof.token = .eof)
    (hpre : ∀ tok ∈ pre, tok.token ≠ .eof) :
    ∃ out, (resolve (pre ++ [eof])).lexemes = out ++ [eof] ∧
      LaidOut (pre.filter (!·.token.isComment)) out := by
  rw [resolve_concat heof hpre]
  generalize pre.filter (!·.token.isComment) = raws
  have hsteps := LaidOut.steps .initial raws
  generalize steps .initial raws = moved at hsteps
  obtain ⟨put, state⟩ := moved
  obtain ⟨out, hfinish, hout⟩ := LaidOut.finish state eof
  refine ⟨put.lexemes ++ out, ?_, ?_⟩
  · rw [TokenStream.lexemes_append, hfinish, List.append_assoc]
  · have hall := hsteps.append hout
    rwa [List.append_nil] at hall

/-! ## What is where -/

/-- The lexemes whose place is not among `spans`. -/
def elsewhere (spans : List Span) (toks : List Lexeme) : List Lexeme :=
  toks.filter fun tok => !spans.contains tok.span

theorem elsewhere_cons_of_ne {span : Span} {spans : List Span} {toks : List Lexeme}
    (h : ∀ tok ∈ toks, tok.span ≠ span) : elsewhere (span :: spans) toks = elsewhere spans toks := by
  refine List.filter_congr fun tok htok => ?_
  simp [h tok htok]

theorem elsewhere_cons_self {tok : Lexeme} {spans : List Span} {toks : List Lexeme}
    (h : ∀ other ∈ toks, tok.span ≠ other.span) :
    elsewhere (tok.span :: spans) (tok :: toks) = elsewhere spans toks := by
  rw [← elsewhere_cons_of_ne fun other hother => (h other hother).symm]
  simp [elsewhere]

theorem elsewhere_cons_of_not_mem {tok : Lexeme} {spans : List Span} (h : tok.span ∉ spans)
    (toks : List Lexeme) : elsewhere spans (tok :: toks) = tok :: elsewhere spans toks := by
  simp [elsewhere, h]

/-- The places of the lexemes that are not picked. -/
def skipped (marks : List (Lexeme × Bool)) : List Span :=
  (marks.filter (!·.2)).map (·.1.span)

namespace LaidOut

variable {raws out : List Lexeme} {tok : Lexeme}

/-- What is no marker comes from the program. -/
theorem mem_of_mem (h : LaidOut raws out) (htok : tok ∈ out) (hvirtual : tok.token.isVirtual = false) :
    tok ∈ raws := by
  induction h with
  | nil => exact htok
  | keep _ ih =>
    rcases List.mem_cons.1 htok with rfl | htok
    · exact List.mem_cons_self
    · exact List.mem_cons_of_mem _ (ih htok)
  | brace _ isVirtual _ ih =>
    rcases List.mem_cons.1 htok with rfl | htok
    · rw [isVirtual] at hvirtual
      exact absurd hvirtual (by simp)
    · exact List.mem_cons_of_mem _ (ih htok)
  | marker isVirtual _ ih =>
    rcases List.mem_cons.1 htok with rfl | htok
    · exact absurd (isVirtual.symm.trans hvirtual) (by simp)
    · exact ih htok

/-- What holds between the tokens of the program holds between those of them
that are put out as they are. -/
theorem pairwise (h : LaidOut raws out) {R : Lexeme → Lexeme → Prop} (hR : raws.Pairwise R) :
    out.Pairwise fun a b => a.token.isVirtual = false → b.token.isVirtual = false → R a b := by
  induction h with
  | nil => exact .nil
  | keep rest ih =>
    obtain ⟨hfirst, hrest⟩ := List.pairwise_cons.1 hR
    exact .cons (fun b hb _ hvirtual => hfirst b (rest.mem_of_mem hb hvirtual)) (ih hrest)
  | brace _ isVirtual _ ih =>
    refine .cons (fun b _ ha => ?_) (ih (List.pairwise_cons.1 hR).2)
    exact absurd (isVirtual.symm.trans ha) (by simp)
  | marker isVirtual _ ih =>
    refine .cons (fun b _ ha => ?_) (ih hR)
    exact absurd (isVirtual.symm.trans ha) (by simp)

/-- A lexeme that is put out has no text, or that of a token of the program. -/
theorem span_eq (h : LaidOut raws out) (htok : tok ∈ out) :
    tok.span.isEmpty = true ∨ ∃ raw ∈ raws, raw.span = tok.span := by
  induction h with
  | nil => simp at htok
  | keep _ ih | brace _ _ _ ih =>
    rcases List.mem_cons.1 htok with rfl | htok
    · exact .inr ⟨_, List.mem_cons_self, rfl⟩
    · exact (ih htok).imp_right fun ⟨raw, hraw, hspan⟩ => ⟨raw, List.mem_cons_of_mem _ hraw, hspan⟩
  | marker _ _ ih =>
    rcases List.mem_cons.1 htok with rfl | htok
    · exact .inl (Span.isEmpty_point _)
    · exact ih htok

/-- No part of what is put out stands at the place of a lexeme in front of it. -/
theorem span_not_mem_skipped (h : LaidOut raws out) (htok : tok.span.isEmpty = false)
    (hne : ∀ raw ∈ raws, tok.span ≠ raw.span) {marks : List (Lexeme × Bool)}
    (hmarks : marks.map (·.1) = out) : tok.span ∉ skipped marks := by
  intro hmem
  obtain ⟨⟨other, flag⟩, hother, hspan⟩ := List.mem_map.1 hmem
  have hout : other ∈ out := by
    rw [← hmarks]
    exact List.mem_map_of_mem (List.mem_of_mem_filter hother)
  rcases h.span_eq hout with hempty | ⟨raw, hraw, heq⟩
  · rw [hspan, htok] at hempty
    cases hempty
  · exact hne raw hraw (heq.trans hspan).symm

/-- If no marker is picked, then what is picked is the program without the places
of what is not. -/
theorem picked_eq (h : LaidOut raws out) (hspans : ∀ tok ∈ raws, tok.span.isEmpty = false)
    (hdistinct : raws.Pairwise fun a b => a.span ≠ b.span) {marks : List (Lexeme × Bool)}
    (hmarks : marks.map (·.1) = out)
    (hpicked : ∀ tok, (tok, true) ∈ marks → tok.token.isVirtual = false) :
    (marks.filter (·.2)).map (·.1) = elsewhere (skipped marks) raws := by
  induction h generalizing marks with
  | nil =>
    obtain rfl := List.map_eq_nil_iff.1 hmarks
    rfl
  | @keep _ raws out rest ih =>
    obtain ⟨⟨tok, picked⟩, marks, rfl, rfl, hrest⟩ := List.map_eq_cons_iff.1 hmarks
    obtain ⟨hne, hdistinct⟩ := List.pairwise_cons.1 hdistinct
    have htail := ih (fun tok htok => hspans tok (List.mem_cons_of_mem _ htok)) hdistinct hrest
      fun tok htok => hpicked tok (List.mem_cons_of_mem _ htok)
    cases picked with
    | true =>
      have hkept := rest.span_not_mem_skipped (hspans tok List.mem_cons_self) hne hrest
      exact (congrArg (tok :: ·) htail).trans (elsewhere_cons_of_not_mem hkept raws).symm
    | false => exact htail.trans (elsewhere_cons_self hne).symm
  | @brace tok t raws out _ isVirtual rest ih =>
    obtain ⟨⟨_, picked⟩, marks, rfl, rfl, hrest⟩ := List.map_eq_cons_iff.1 hmarks
    obtain ⟨hne, hdistinct⟩ := List.pairwise_cons.1 hdistinct
    have htail := ih (fun tok htok => hspans tok (List.mem_cons_of_mem _ htok)) hdistinct hrest
      fun tok htok => hpicked tok (List.mem_cons_of_mem _ htok)
    cases picked with
    | true => exact absurd (isVirtual.symm.trans (hpicked _ List.mem_cons_self)) (by simp)
    | false => exact htail.trans (elsewhere_cons_self hne).symm
  | @marker tok t raws out isVirtual rest ih =>
    obtain ⟨⟨_, picked⟩, marks, rfl, rfl, hrest⟩ := List.map_eq_cons_iff.1 hmarks
    have htail := ih hspans hdistinct hrest
      fun tok htok => hpicked tok (List.mem_cons_of_mem _ htok)
    cases picked with
    | true => exact absurd (isVirtual.symm.trans (hpicked _ List.mem_cons_self)) (by simp)
    | false =>
      refine htail.trans (elsewhere_cons_of_ne fun x hx heq => ?_).symm
      have hempty := hspans x hx
      rw [heq] at hempty
      simp [Lexeme.marker] at hempty

end LaidOut

end Layout

end Offside
