-- SUMMARY: Every problem of a text has a line and a column, and they are reported in the order of these.
import Offside.Proofs.Fixity.Sites
import Offside.Proofs.Layout.Problems
import Offside.Proofs.Source.Spans

/-! # Positions

Reading on by one character goes on in the line or to a new one, so a longer
part of a text ends at a later position. Positions are therefore in the order of
offsets. Every stage finds its problems at stretches of the text, so all of them
have positions, and sorted by offsets they are sorted by positions:
`parse_positions`. -/

namespace Offside

namespace Position

/-- Positions are ordered by line, then by column. -/
instance : LT Position where
  lt p q := p.line < q.line ∨ p.line = q.line ∧ p.column < q.column

instance : LE Position where
  le p q := p.line < q.line ∨ p.line = q.line ∧ p.column ≤ q.column

theorem lt_iff {p q : Position} :
    p < q ↔ p.line < q.line ∨ p.line = q.line ∧ p.column < q.column := Iff.rfl

theorem le_iff {p q : Position} :
    p ≤ q ↔ p.line < q.line ∨ p.line = q.line ∧ p.column ≤ q.column := Iff.rfl

/-- One character further. -/
theorem after_concat (before : List Char) (c : Char) :
    after (before ++ [c]) = if c = '\n' then ⟨(after before).line + 1, 1⟩
      else ⟨(after before).line, (after before).column + 1⟩ := by
  by_cases hc : c = '\n' <;> simp [after, hc]

theorem after_lt_concat (before : List Char) (c : Char) : after before < after (before ++ [c]) := by
  rw [lt_iff, after_concat]
  split <;> simp

theorem after_le_append (before text : List Char) : after before ≤ after (before ++ text) := by
  induction text generalizing before with
  | nil => simp [le_iff]
  | cons c text ih =>
    have hfirst := after_lt_concat before c
    have hrest := ih (before ++ [c])
    rw [List.append_assoc, List.singleton_append] at hrest
    simp only [lt_iff, le_iff] at *
    omega

/-- More text ends at a later position. -/
theorem after_lt_append {before text : List Char} (h : text ≠ []) :
    after before < after (before ++ text) := by
  cases text with
  | nil => exact absurd rfl h
  | cons c text =>
    have hfirst := after_lt_concat before c
    have hrest := after_le_append (before ++ [c]) text
    rw [List.append_assoc, List.singleton_append] at hrest
    simp only [lt_iff, le_iff] at *
    omega

end Position

namespace Text

variable {cs before before' : List Char} {i j : Nat}

theorem before?_eq_some (h : before? cs i = some before) :
    before <+: cs ∧ byteLength before = i := by
  obtain ⟨⟨_, after⟩, hcut, rfl⟩ := Option.map_eq_some_iff.1 h
  obtain ⟨hcs, hlength⟩ := eq_append_of_splitAt? hcut
  exact ⟨⟨after, hcs.symm⟩, hlength⟩

/-- Of two cuts of a text the later one has the other's text and more before it. -/
theorem prefix_of_before? (h : before? cs i = some before) (h' : before? cs j = some before')
    (hij : i ≤ j) : before <+: before' := by
  obtain ⟨hcut, rfl⟩ := before?_eq_some h
  obtain ⟨hcut', rfl⟩ := before?_eq_some h'
  rcases List.prefix_or_prefix_of_prefix hcut hcut' with hle | ⟨rest, rfl⟩
  · exact hle
  -- The other way round there is nothing more before the first cut, since every
  -- character takes at least a byte.
  · obtain rfl : rest = [] := by
      cases rest with
      | nil => rfl
      | cons c rest =>
        have hpos := c.utf8Size_pos
        rw [byteLength_append, byteLength_cons] at hij
        omega
    simp

/-- Offsets in order have positions in order. -/
theorem after_le_of_before? (h : before? cs i = some before) (h' : before? cs j = some before')
    (hij : i ≤ j) : Position.after before ≤ Position.after before' := by
  obtain ⟨rest, rfl⟩ := prefix_of_before? h h' hij
  exact Position.after_le_append before rest

theorem after_lt_of_before? (h : before? cs i = some before) (h' : before? cs j = some before')
    (hij : i < j) : Position.after before < Position.after before' := by
  obtain ⟨rest, rfl⟩ := prefix_of_before? h h' (Nat.le_of_lt hij)
  refine Position.after_lt_append ?_
  rintro rfl
  have hi := (before?_eq_some h).2
  have hj := (before?_eq_some h').2
  rw [List.append_nil] at hj
  omega

end Text

/-- A stretch of a text has positions, which are those of what stands before its
ends. -/
theorem Span.Lies.positions {source : String} {span outer : Span} (h : span.Lies source outer) :
    ∃ first last, Text.before? source.toList span.start = some first ∧
      span.positions? source = some (.after first, .after last) := by
  obtain ⟨first, hfirst⟩ := Option.isSome_iff_exists.1 h.start
  obtain ⟨last, hlast⟩ := Option.isSome_iff_exists.1 h.stop
  refine ⟨first, last, hfirst, ?_⟩
  rw [positions?, if_pos h.le, hfirst, hlast]
  rfl

/-- Positions of boundaries are in the order of the boundaries. -/
theorem Span.positions?_point {source : String} {i j : Nat} (hi : Text.IsBoundary source i)
    (hj : Text.IsBoundary source j) (hij : i < j) :
    ∃ p q, (point i).positions? source = some (p, p) ∧
      (point j).positions? source = some (q, q) ∧ p < q := by
  obtain ⟨before, hbefore⟩ := Option.isSome_iff_exists.1 hi
  obtain ⟨before', hbefore'⟩ := Option.isSome_iff_exists.1 hj
  refine ⟨.after before, .after before', ?_, ?_, Text.after_lt_of_before? hbefore hbefore' hij⟩
  · simp [positions?, point, hbefore]
  · simp [positions?, point, hbefore']

namespace Diagnostic

theorem pairwise_sort (ds : List Diagnostic) :
    (sort ds).Pairwise fun a b => a.span.start ≤ b.span.start := by
  have hsorted : (sort ds).Pairwise fun a b => decide (a.span.start ≤ b.span.start) = true :=
    List.pairwise_mergeSort
      (fun a b c hab hbc => by simp only [decide_eq_true_eq] at *; omega)
      (fun a b => by simp only [Bool.or_eq_true, decide_eq_true_eq]; omega) ds
  simpa only [decide_eq_true_eq] using hsorted

/-- Problems in the order of their starts have positions in that order. -/
theorem exists_places {source : String} {ds : List Diagnostic} (hsited : ∀ d ∈ ds, d.Sited source)
    (hsorted : ds.Pairwise fun a b => a.span.start ≤ b.span.start) :
    ∃ places : List (Position × Position),
      ds.map (·.span.positions? source) = places.map some ∧
      (places.map (·.1)).Pairwise (· ≤ ·) := by
  induction ds with
  | nil => exact ⟨[], rfl, .nil⟩
  | cons d ds ih =>
    obtain ⟨hd, hds⟩ := List.forall_mem_cons.1 hsited
    obtain ⟨hfirst, hrest⟩ := List.pairwise_cons.1 hsorted
    obtain ⟨first, last, hbefore, hpositions⟩ := hd.positions
    obtain ⟨places, hplaces, hordered⟩ := ih hds hrest
    refine ⟨(.after first, .after last) :: places, ?_, ?_⟩
    · rw [List.map_cons, List.map_cons, hpositions, hplaces]
    · refine List.pairwise_cons.2 ⟨fun p hp => ?_, hordered⟩
      obtain ⟨place, hplace, rfl⟩ := List.mem_map.1 hp
      obtain ⟨d', hd', hpositions'⟩ : ∃ d' ∈ ds, d'.span.positions? source = some place :=
        List.mem_map.1 (hplaces ▸ List.mem_map_of_mem hplace)
      obtain ⟨first', last', hbefore', hsome⟩ := (hds d' hd').positions
      obtain rfl := Option.some.inj (hpositions'.symm.trans hsome)
      exact Text.after_le_of_before? hbefore hbefore' (hfirst d' hd')

end Diagnostic

namespace Source

/-- All problems of a text are at stretches of it, whichever stage found them. -/
theorem sited_parse (options : Options) (source : String) :
    ∀ d ∈ (parse options source).diagnostics, d.Sited source := by
  have hordered := ordered_cursor options source
  have hscan := Lexeme.sited_scan options.tabWidth source
  have hlayout : ∀ d ∈ (Layout.resolve (Lexeme.scan options.tabWidth source).lexemes).diagnostics,
      d.Sited source := by
    intro d hd
    obtain ⟨-, tok, htok, hspan⟩ := Layout.exists_mem_of_resolve _ d hd
    have hstands := (Lexeme.ordered_scan options.tabWidth source).stands_of_mem htok
    have hsited := hstands.sited d.problem
    rwa [← hspan] at hsited
  have hfile := Parser.file_sited options hordered
  have hresolve := Fixity.sited_resolveFile options.maxNesting
    (Parser.file_lies options hordered).1
  intro d hd
  have hd := (Diagnostic.sort_perm _).mem_iff.1 hd
  -- One case for each stage: scanning, layout, parsing, resolution.
  rcases List.mem_append.1 hd with hd | hd
  · rcases List.mem_append.1 hd with hd | hd
    · rcases List.mem_append.1 hd with hd | hd
      · exact hscan d hd
      · exact hlayout d hd
    · exact hfile d hd
  · exact hresolve d hd

/-- Every problem of a text has positions there, so it is rendered with the line
and the column of its start, and the positions of the starts never go back.
Boundaries further on in a text have later positions. -/
theorem parse_positions (options : Options) (source : String) :
    (∃ places : List (Position × Position),
      (parse options source).diagnostics.map (·.span.positions? source) = places.map some ∧
      (places.map (·.1)).Pairwise (· ≤ ·)) ∧
    (∀ d ∈ (parse options source).diagnostics, ∃ first last : Position,
      d.span.positions? source = some (first, last) ∧
      d.render source = s!"{first.text}: {d.code}: {d.message}") ∧
    ∀ i j, Text.IsBoundary source i → Text.IsBoundary source j → i < j →
      ∃ p q, (Span.point i).positions? source = some (p, p) ∧
        (Span.point j).positions? source = some (q, q) ∧ p < q := by
  have hsited := sited_parse options source
  refine ⟨Diagnostic.exists_places hsited (Diagnostic.pairwise_sort _), fun d hd => ?_,
    fun i j hi hj hij => Span.positions?_point hi hj hij⟩
  obtain ⟨first, last, -, hpositions⟩ := (hsited d hd).positions
  refine ⟨.after first, .after last, hpositions, ?_⟩
  rw [Diagnostic.render, hpositions]

end Source

end Offside
