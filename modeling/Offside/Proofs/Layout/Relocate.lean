-- SUMMARY: Layout resolution sees only the order of columns: what it makes of tokens at other places.
import Offside.Proofs.Layout.Origins

/-! # Tokens at other places

Layout resolution compares columns with each other and hands spans on. A
`Relocation` gives lexemes other spans, and other columns in the same order.
Every function of layout resolution commutes with it, and so does `resolve`:
`resolve_relocate`. Where the spans stay, this says that only the order of the
columns counts: `resolve_recolumn`. -/

namespace Offside

namespace Layout

/-- Other spans and columns for lexemes. The columns stay in order, and 0, which
stands for no column, stays 0. -/
structure Relocation where
  span : Span → Span
  column : Nat → Nat
  span_point : ∀ s, span (.point s.start) = .point (span s).start
  column_zero : column 0 = 0
  column_lt : ∀ a b, a < b → column a < column b

namespace Relocation

variable (r : Relocation)

/-- The token at its other place. -/
def lexeme (tok : Lexeme) : Lexeme :=
  { tok with span := r.span tok.span, column := r.column tok.column }

/-- The same frame among relocated tokens. -/
def frame : Frame → Frame
  | .implicit kind column => .implicit kind (r.column column)
  | .braced kind opening => .braced kind (r.span opening)
  | .bracket => .bracket

/-- The same state among relocated tokens. -/
def state (state : State) : State := ⟨state.stack.map r.frame, state.pending⟩

/-- The problem with other columns. -/
def problem : Problem → Problem
  | .betweenBlocks column outer inner =>
    .betweenBlocks (r.column column) (r.column outer) (r.column inner)
  | .leftOfFile column first => .leftOfFile (r.column column) (r.column first)
  | problem => problem

/-- The problem at its other place. -/
def diagnostic (d : Diagnostic) : Diagnostic := (r.problem d.problem).at (r.span d.span)

/-- The stream at its other places. -/
def stream (s : TokenStream) : TokenStream :=
  ⟨s.lexemes.map r.lexeme, s.diagnostics.map r.diagnostic⟩

@[simp] theorem lexeme_token (tok : Lexeme) : (r.lexeme tok).token = tok.token := rfl

@[simp] theorem lexeme_lineStart (tok : Lexeme) : (r.lexeme tok).lineStart = tok.lineStart := rfl

@[simp] theorem lexeme_column (tok : Lexeme) : (r.lexeme tok).column = r.column tok.column := rfl

@[simp] theorem lexeme_span (tok : Lexeme) : (r.lexeme tok).span = r.span tok.span := rfl

@[simp] theorem lexeme_marker (t : Token) (tok : Lexeme) :
    r.lexeme (.marker t tok) = .marker t (r.lexeme tok) := by
  simp [lexeme, Lexeme.marker, r.span_point]

@[simp] theorem map_ends (count : Nat) (tok : Lexeme) :
    (ends count tok).map r.lexeme = ends count (r.lexeme tok) := by
  simp [ends]

@[simp] theorem state_mk (stack : List Frame) (pending : Option BlockKind) :
    r.state ⟨stack, pending⟩ = ⟨stack.map r.frame, pending⟩ := rfl

@[simp] theorem stream_mk (toks : List Lexeme) (ds : List Diagnostic) :
    r.stream ⟨toks, ds⟩ = ⟨toks.map r.lexeme, ds.map r.diagnostic⟩ := rfl

@[simp] theorem stream_empty : r.stream .empty = .empty := rfl

@[simp] theorem stream_append (a b : TokenStream) :
    r.stream (a ++ b) = r.stream a ++ r.stream b := by
  simp only [stream, TokenStream.lexemes_append, TokenStream.diagnostics_append, List.map_append]
  rfl

/-- Columns compare as before. -/
@[simp] theorem column_lt_iff {a b : Nat} : r.column a < r.column b ↔ a < b := by
  refine ⟨fun h => ?_, r.column_lt a b⟩
  rcases Nat.lt_trichotomy a b with hlt | rfl | hgt
  · exact hlt
  · exact absurd h (Nat.lt_irrefl _)
  · have := r.column_lt b a hgt
    omega

@[simp] theorem column_inj {a b : Nat} : r.column a = r.column b ↔ a = b := by
  have hlt := r.column_lt_iff (a := a) (b := b)
  have hgt := r.column_lt_iff (a := b) (b := a)
  omega

/-! ## One step -/

@[simp] theorem margin_map (stack : List Frame) :
    margin (stack.map r.frame) = r.column (margin stack) := by
  rcases stack with _ | ⟨_ | _ | _, rest⟩ <;> simp [margin, frame, r.column_zero]

@[simp] theorem hasItems_relocate (stack : List Frame) (tok : Lexeme) :
    hasItems (stack.map r.frame) (r.lexeme tok) = hasItems stack tok := by
  simp [hasItems]

theorem closeLet?_map (stack : List Frame) :
    closeLet? (stack.map r.frame) =
      (closeLet? stack).map fun (count, left) => (count, left.map r.frame) := by
  fun_induction closeLet? stack with
  | case1 | case2 => rfl
  | case3 column rest ih =>
    simp only [List.map_cons, frame, closeLet?, ih, Option.map_map]
    rfl
  | case4 stack =>
    rcases stack with _ | ⟨⟨_ | _, _⟩ | ⟨_ | _, _⟩ | _, rest⟩ <;> simp_all [closeLet?, frame]

theorem closeInside?_map (stack : List Frame) :
    closeInside? (stack.map r.frame) =
      (closeInside? stack).map fun (count, left) => (count, left.map r.frame) := by
  fun_induction closeInside? stack with
  | case1 => rfl
  | case2 kind column rest ih =>
    simp only [List.map_cons, frame, closeInside?, ih, Option.map_map]
    rfl
  | case3 stack =>
    rcases stack with _ | ⟨⟨_, _⟩ | ⟨_, _⟩ | _, rest⟩ <;> simp_all [closeInside?, frame]

theorem dedent_relocate (tok : Lexeme) (inner : Option Nat) (stack : List Frame) :
    dedent (r.lexeme tok) (inner.map r.column) (stack.map r.frame) =
      Prod.map r.stream (List.map r.frame) (dedent tok inner stack) := by
  induction stack generalizing inner with
  | nil => simp [dedent]
  | cons f rest ih =>
    cases f with
    | braced | bracket => simp [dedent, frame]
    | implicit kind column =>
      have hrest : dedent (r.lexeme tok) (some (r.column column)) (rest.map r.frame) = _ :=
        ih (some column)
      simp only [List.map_cons, frame, dedent, lexeme_column, column_inj, column_lt_iff,
        List.isEmpty_map, hrest]
      split
      · simp [frame]
      · split
        · cases inner <;> simp [frame, diagnostic, problem, Problem.at]
        · split <;> simp [frame, diagnostic, problem, Problem.at]

theorem putPlain_relocate (tok : Lexeme) (stack : List Frame) :
    putPlain (r.lexeme tok) (stack.map r.frame) =
      Prod.map r.stream r.state (putPlain tok stack) := by
  cases htoken : tok.token <;> simp [putPlain, htoken, frame]

theorem putCloser_relocate (tok : Lexeme) (stack : List Frame) :
    putCloser (r.lexeme tok) (stack.map r.frame) =
      Prod.map r.stream r.state (putCloser tok stack) := by
  simp only [putCloser, closeInside?_map, lexeme_token]
  cases closeInside? stack with
  | none => simp
  | some closed =>
    rcases closed with ⟨count, _ | ⟨_ | _ | _, left⟩⟩
    case braced => by_cases hbrace : tok.token = .rbrace <;> simp [frame, lexeme, hbrace]
    all_goals simp [frame]

theorem put_relocate (tok : Lexeme) (opened : Bool) (stack : List Frame) :
    put (r.lexeme tok) opened (stack.map r.frame) =
      Prod.map r.stream r.state (put tok opened stack) := by
  have hdedent : dedent (r.lexeme tok) none (stack.map r.frame) = _ :=
    r.dedent_relocate tok none stack
  simp only [put, lexeme_token]
  split
  · rw [closeLet?_map]
    cases closeLet? stack <;> simp
  · exact r.putCloser_relocate tok stack
  · exact r.putCloser_relocate tok stack
  · cases hline : tok.lineStart <;> cases opened <;> simp [hline, hdedent, putPlain_relocate]

/-- A step does the same with a relocated token. -/
theorem step_relocate (s : State) (tok : Lexeme) :
    step (r.state s) (r.lexeme tok) = Prod.map r.stream r.state (step s tok) := by
  obtain ⟨stack, pending⟩ := s
  cases pending with
  | none => exact r.put_relocate tok false stack
  | some kind =>
    have hput : put (r.lexeme tok) true (.implicit kind (r.column tok.column) ::
        stack.map r.frame) = _ := r.put_relocate tok true (.implicit kind tok.column :: stack)
    by_cases hbrace : tok.token = .lbrace
    · simp [step, hbrace, lexeme, frame]
    · cases hitems : hasItems stack tok <;> simp [step, hbrace, hitems, hput, put_relocate]

/-! ## Whole texts -/

theorem steps_relocate (s : State) (toks : List Lexeme) :
    steps (r.state s) (toks.map r.lexeme) = Prod.map r.stream r.state (steps s toks) := by
  induction toks generalizing s with
  | nil => rfl
  | cons tok toks ih => simp [steps_cons, step_relocate, ih]

theorem closeAll_relocate (eof : Lexeme) (stack : List Frame) :
    closeAll (r.lexeme eof) (stack.map r.frame) = r.stream (closeAll eof stack) := by
  fun_induction closeAll eof stack with
  | case1 => rfl
  | case2 kind column rest ih => simp [closeAll, frame, ih]
  | case3 kind opening rest ih => simp [closeAll, frame, ih, diagnostic, problem, Problem.at]
  | case4 rest ih => simp [closeAll, frame, ih]

theorem finish_relocate (s : State) (eof : Lexeme) :
    finish (r.state s) (r.lexeme eof) = r.stream (finish s eof) := by
  obtain ⟨stack, pending⟩ := s
  cases pending <;> simp [finish, closeAll_relocate]

theorem program_map (toks : List Lexeme) :
    program (toks.map r.lexeme) = (program toks).map r.lexeme := by
  simp only [program, List.filter_map, List.takeWhile_map, Function.comp_def]
  rfl

end Relocation

/-- If a text has an end of file, none is added to it. -/
theorem IsEnd.find?_eq {toks : List Lexeme} {eof : Lexeme} (h : IsEnd toks eof)
    (heof : ∃ tok ∈ toks, tok.token = .eof) : toks.find? (·.token = .eof) = some eof := by
  rcases h with h | ⟨hnone, -⟩
  · exact h
  · obtain ⟨tok, htok, heof⟩ := heof
    simpa [heof] using List.find?_eq_none.1 hnone tok htok

/-- Layout resolution of a text with an end of file commutes with relocation. -/
theorem resolve_relocate (r : Relocation) {toks : List Lexeme} (heof : ∃ tok ∈ toks, tok.token = .eof) :
    resolve (toks.map r.lexeme) = r.stream (resolve toks) := by
  obtain ⟨eof, hend, hresolve⟩ := resolve_eq_of_end toks
  obtain ⟨eof', hend', hresolve'⟩ := resolve_eq_of_end (toks.map r.lexeme)
  have hsteps : steps .initial _ = _ := r.steps_relocate .initial (program toks)
  have heof' : ∃ tok ∈ toks.map r.lexeme, tok.token = .eof := by
    obtain ⟨tok, htok, heof⟩ := heof
    exact ⟨r.lexeme tok, List.mem_map_of_mem htok, heof⟩
  obtain rfl : r.lexeme eof = eof' := by
    have hfind := hend'.find?_eq heof'
    rw [List.find?_map] at hfind
    exact Option.some.inj ((congrArg (Option.map r.lexeme) (hend.find?_eq heof)).symm.trans hfind)
  rw [hresolve', hresolve, r.program_map, hsteps, r.stream_append]
  exact congrArg _ (r.finish_relocate _ _)

/-! ## Other columns -/

/-- The token at column `f column`. -/
def recolumn (f : Nat → Nat) (tok : Lexeme) : Lexeme := { tok with column := f tok.column }

section

variable {f : Nat → Nat} (hpos : ∀ c, 0 < c → 0 < f c) (hlt : ∀ a b, 0 < a → a < b → f a < f b)

/-- Other columns in the same order, for tokens that stay where they are. -/
def Relocation.ofColumns : Relocation where
  span := id
  column c := if c = 0 then 0 else f c
  span_point _ := rfl
  column_zero := rfl
  column_lt a b hab := by
    rw [if_neg (Nat.ne_of_gt (Nat.zero_lt_of_lt hab))]
    split
    · exact hpos b (Nat.zero_lt_of_lt hab)
    · rename_i hne
      exact hlt a b (Nat.pos_of_ne_zero hne) hab

theorem Relocation.map_ofColumns {toks : List Lexeme} (htoks : ∀ tok ∈ toks, 0 < tok.column) :
    toks.map (ofColumns hpos hlt).lexeme = toks.map (recolumn f) := by
  refine List.map_congr_left fun tok htok => ?_
  have hne := Nat.ne_of_gt (htoks tok htok)
  simp [lexeme, ofColumns, recolumn, hne]

end

/-- A lexeme of resolved layout is at the column of a token. -/
theorem Woven.exists_column {before os : List Origin} {raws : List Lexeme} (h : Woven before raws os) :
    ∀ o ∈ os, ∃ tok ∈ raws, o.lexeme.column = tok.column := by
  induction h with
  | nil => simp
  | inserted _ _ ih => exact List.forall_mem_cons.2 ⟨⟨_, List.mem_cons_self, rfl⟩, ih⟩
  | kept _ _ ih | brace _ _ ih =>
    refine List.forall_mem_cons.2 ⟨⟨_, List.mem_cons_self, rfl⟩, fun o ho => ?_⟩
    obtain ⟨tok, htok, heq⟩ := ih o ho
    exact ⟨tok, List.mem_cons_of_mem _ htok, heq⟩

theorem column_pos_resolve {toks : List Lexeme} (htoks : ∀ tok ∈ toks, 0 < tok.column) :
    ∀ tok ∈ (resolve toks).lexemes, 0 < tok.column := by
  obtain ⟨eof, os, hend, hout, hwoven⟩ := exists_woven_resolve toks
  have heof : 0 < eof.column := by
    rcases hend with hfind | ⟨-, offset, rfl⟩
    · exact htoks eof (List.mem_of_find?_eq_some hfind)
    · exact Nat.one_pos
  rw [hout]
  intro tok htok
  obtain ⟨o, ho, rfl⟩ := List.mem_map.1 htok
  obtain ⟨raw, hraw, hcolumn⟩ := hwoven.exists_column o ho
  rw [hcolumn]
  rcases List.mem_append.1 hraw with hraw | hraw
  · exact htoks raw (program_subset hraw)
  · rwa [List.mem_singleton.1 hraw]

/-- Layout resolution depends on the order of the columns alone. With other
columns in the same order it puts out the same tokens at the same places, each
at its new column, and finds the same problems, with the new columns in them. -/
theorem resolve_recolumn {f : Nat → Nat} (hpos : ∀ c, 0 < c → 0 < f c)
    (hlt : ∀ a b, 0 < a → a < b → f a < f b) {toks : List Lexeme}
    (htoks : ∀ tok ∈ toks, 0 < tok.column) (heof : ∃ tok ∈ toks, tok.token = .eof) :
    (resolve (toks.map (recolumn f))).lexemes =
        (resolve toks).lexemes.map (recolumn f) ∧
      (resolve (toks.map (recolumn f))).diagnostics.map (·.span) =
        (resolve toks).diagnostics.map (·.span) ∧
      (resolve (toks.map (recolumn f))).diagnostics.map (·.problem) =
        (resolve toks).diagnostics.map fun d => (Relocation.ofColumns hpos hlt).problem d.problem := by
  have hresolve := resolve_relocate (Relocation.ofColumns hpos hlt) heof
  rw [Relocation.map_ofColumns hpos hlt htoks] at hresolve
  rw [hresolve]
  refine ⟨Relocation.map_ofColumns hpos hlt (column_pos_resolve htoks), ?_, ?_⟩
  · rw [Relocation.stream, List.map_map]
    rfl
  · rw [Relocation.stream, List.map_map]
    rfl

/-- The third line is between two blocks, however far apart they are. -/
theorem resolve_recolumn_between :
    let tok (t : Token) (start line column : Nat) (lineStart : Bool) : Lexeme :=
      ⟨t, ⟨start, start + 1⟩, line, column, lineStart⟩
    let toks := [tok (.ident "f") 0 1 1 true, tok .kwWhere 2 1 3 false, tok (.ident "g") 12 2 5 true,
      tok (.ident "k") 16 3 3 true, tok .eof 18 4 1 false]
    let f (column : Nat) := 10 * column + 7
    (∀ tok ∈ toks, 0 < tok.column) ∧ (resolve toks).diagnostics.map (·.span) = [⟨16, 17⟩] ∧
      (resolve (toks.map (recolumn f))).lexemes =
        (resolve toks).lexemes.map (recolumn f) ∧
      (resolve (toks.map (recolumn f))).diagnostics.map (·.span) = [⟨16, 17⟩] := by
  intro tok toks f
  have htoks : ∀ tok ∈ toks, 0 < tok.column := by decide
  have hspans : (resolve toks).diagnostics.map (·.span) = [⟨16, 17⟩] := by decide
  obtain ⟨hlexemes, hdiagnostics, -⟩ := resolve_recolumn (f := f) (fun c _ => Nat.succ_pos _)
    (fun a b _ hab => by simp only [f]; omega) htoks ⟨tok .eof 18 4 1 false, by simp [toks], rfl⟩
  exact ⟨htoks, hspans, hlexemes, hdiagnostics.trans hspans⟩

end Layout

end Offside
