-- SUMMARY: Every block of a text is read to its end, and each of its items as if it stood alone.
import Offside.Proofs.Fixity.Problems
import Offside.Proofs.Layout.Problems
import Offside.Proofs.Parser.Returns
import Offside.Proofs.Parser.TwinGrammar
import Offside.Proofs.Source.Conserved

/-! # Recovery from problems

A problem in an item of a block is a matter of that item. The parser goes on at
the next separator of the block, and leaves the block behind its own end
(`block_resumes`). So what it gives for a block is what it gives for the
segments of the block one by one (`block_itemByItem`). -/

namespace Offside

/-! ## Segments of a block -/

/-- How many blocks are open after a token. -/
def depthAfter (depth : Nat) : Token → Nat
  | .blockStart => depth + 1
  | .blockEnd => depth - 1
  | _ => depth

/-- The contents of a block that ends with `stop`, divided at its own separators.
With each segment comes what ends it: a block end in the place of the separator,
and `stop` at last. `depth` blocks are open inside. -/
def segments (stop : Lexeme) : (depth : Nat) → List Lexeme → List (List Lexeme × Lexeme)
  | _, [] => [([], stop)]
  | depth, tok :: toks =>
    if depth = 0 ∧ tok.token = .blockSep then
      ([], { tok with token := .blockEnd }) :: segments stop 0 toks
    else
      (segments stop (depthAfter depth tok.token) toks).modifyHead fun (segment, close) =>
        (tok :: segment, close)

section

variable {stop tok : Lexeme} {toks rest : List Lexeme} {depth : Nat}

/-- A token inside a segment is no separator of the block. -/
theorem blocksClose_depthAfter (h : blocksClose false depth (tok :: toks) = true) :
    ¬ (depth = 0 ∧ tok.token = .blockSep) ∧
      blocksClose false (depthAfter depth tok.token) toks = true := by
  rcases tok.token.marker_cases with ht | ht | ht | ht
  · rw [blocksClose_start ht] at h
    exact ⟨by simp [ht], by rwa [ht]⟩
  · obtain ⟨hdepth, h⟩ := (blocksClose_sep ht).1 h
    exact ⟨by simpa [ht, Nat.pos_iff_ne_zero] using hdepth, by rwa [ht]⟩
  · obtain ⟨-, h⟩ := (blocksClose_end ht).1 h
    exact ⟨by simp [ht], by rwa [ht]⟩
  · rw [blocksClose_plain ht] at h
    refine ⟨fun hsep => by simp [hsep.2, Token.isVirtual] at ht, ?_⟩
    rw [depthAfter.eq_def]
    split <;> simp_all [Token.isVirtual]

theorem segments_last (h : blocksClose false depth toks = true) :
    segments stop depth toks = [(toks, stop)] := by
  induction toks generalizing depth with
  | nil => rfl
  | cons tok toks ih =>
    obtain ⟨hsep, h⟩ := blocksClose_depthAfter h
    rw [segments, if_neg hsep, ih h]
    rfl

theorem segments_append {sep : Lexeme} (h : blocksClose false depth toks = true)
    (hsep : sep.token = .blockSep) : segments stop depth (toks ++ sep :: rest) =
      (toks, { sep with token := .blockEnd }) :: segments stop 0 rest := by
  induction toks generalizing depth with
  | nil =>
    obtain rfl := blocksClose_nil.1 h
    simp [segments, hsep]
  | cons tok toks ih =>
    obtain ⟨hne, h⟩ := blocksClose_depthAfter h
    rw [List.cons_append, segments, if_neg hne, ih h]
    rfl

end

/-- What a parser of blocks gives; nothing if it stops. -/
def Report.items {α : Type} (r : Report (List α)) : List α :=
  match r.result with
  | .ok as => as
  | .error _ => []

namespace Parser

variable {α : Type} {p : Parser α} {c : Cursor}

/-! ## Blocks -/

/-- `p` gives a value and stops before `after`. -/
def Resumes (p : Parser α) (c : Cursor) (after : List Lexeme) : Prop :=
  ∃ a c', p.Returns c a c' ∧ c'.ahead = after

/-- A segment as a stream of its own, as a block that begins with `start` and ends
where the segment does. -/
def alone (start eof : Lexeme) (segment : List Lexeme × Lexeme) : Cursor :=
  .ofLexemes (start :: segment.1 ++ [segment.2, eof])

/-- `items` and `problems` are what a parser of blocks gives for the segments
alone, in order. A segment that holds more than semicolons gives an item or a
problem. -/
structure SegmentBySegment (p : Parser (List α)) (start eof : Lexeme)
    (segments : List (List Lexeme × Lexeme)) (items : List α)
    (problems : List (String × String × Span)) : Prop where
  returns : ∀ s ∈ segments, ∃ as, (p (alone start eof s)).1.result = .ok as
  items : items = segments.flatMap fun s => (p (alone start eof s)).1.items
  problems : problems = segments.flatMap fun s =>
    (p (alone start eof s)).1.diagnostics.map Diagnostic.shown
  productive : ∀ s ∈ segments, (∃ tok ∈ s.1, tok.token ≠ .semicolon) →
    (p (alone start eof s)).1.items ≠ [] ∨ (p (alone start eof s)).1.diagnostics ≠ []

theorem SegmentBySegment.nil {p : Parser (List α)} {start eof : Lexeme} :
    SegmentBySegment p start eof [] [] [] :=
  ⟨by simp, rfl, rfl, by simp⟩

theorem SegmentBySegment.cons {p : Parser (List α)} {start eof : Lexeme}
    {s : List Lexeme × Lexeme} {segments : List (List Lexeme × Lexeme)} {as items : List α}
    {ds : List Diagnostic} {problems : List (String × String × Span)}
    (hs : (p (alone start eof s)).1 = ⟨ds, .ok as⟩)
    (hproductive : (∃ tok ∈ s.1, tok.token ≠ .semicolon) → as ≠ [] ∨ ds ≠ [])
    (h : SegmentBySegment p start eof segments items problems) :
    SegmentBySegment p start eof (s :: segments) (as ++ items)
      (ds.map Diagnostic.shown ++ problems) where
  returns := List.forall_mem_cons.2 ⟨⟨as, by rw [hs]⟩, h.returns⟩
  items := by rw [List.flatMap_cons, hs, ← h.items, Report.items]
  problems := by rw [List.flatMap_cons, hs, ← h.problems]
  productive := by
    refine List.forall_mem_cons.2 ⟨fun htok => ?_, h.productive⟩
    simpa only [hs, Report.items] using hproductive htok

/-- What a parser of blocks gives at `c`, and the problems it records, are those
of the segments alone. -/
def ItemByItem (p : Parser (List α)) (c : Cursor) (start : Lexeme)
    (segments : List (List Lexeme × Lexeme)) : Prop :=
  ∃ items, (p c).1.result = .ok items ∧
    SegmentBySegment p start c.eof segments items ((p c).1.diagnostics.map Diagnostic.shown)

/-- A segment is read in its block as it is alone. -/
theorem exists_segmentItems (hp : ReadsItems p) {start eof x close : Lexeme}
    {w segment rest : List Lexeme} (hstart : start.token = .blockStart) (heof : eof.token = .eof)
    (hsegment : Layout.IsSegment segment (x :: rest)) (hproper : ∀ tok ∈ segment, tok.IsProper)
    (hx : x.token.endsSegment = true) (hclose : close.token = .blockEnd) (hspan : x.span = close.span)
    (hw : ∀ y ∈ w, y.token.isSeparator = true) (hc : c.ahead = w ++ (segment ++ x :: rest)) :
    ∃ ds ds' os c₁ w₁, Items p c ds os c₁ ∧ c₁.ahead = w₁ ++ x :: rest ∧
      (∀ y ∈ w₁, y.token.isSeparator = true) ∧
      (block p (alone start eof (segment, close))).1 = ⟨ds', .ok (os.filterMap id)⟩ ∧
      List.Forall₂ Diagnostic.Alike ds ds' ∧
      ((∃ tok ∈ segment, tok.token ≠ .semicolon) → os.filterMap id ≠ [] ∨ ds' ≠ []) := by
  have halone : alone start eof (segment, close) = ⟨start :: (segment ++ [close]), eof, 0⟩ := by
    rw [alone, ← Cursor.ofLexemes_concat _ heof]
    simp
  have hb : Boundary (x :: rest) [close] :=
    ⟨x, rest, close, [], rfl, rfl, hx, by rw [hclose]; rfl, hspan⟩
  have hshared : Shared (x :: rest) [close] segment :=
    ⟨hsegment.closes, hproper, fun toks htoks => hsegment.scans close hclose toks htoks⟩
  have hfacing : Facing (segment ++ x :: rest) (segment ++ [close]) False c
      ((alone start eof (segment, close)).skip 1) :=
    ⟨⟨w, [], hw, by simp, hc, by simp [halone], False.elim⟩, False.elim⟩
  obtain ⟨ds, ds', os, c₁, c₁', hitems, hitems', halike, hfacing', hproductive⟩ :=
    exists_items hb (hp _ _ False) hshared hfacing
  obtain ⟨w₁, w₁', hw₁, hw₁', hc₁, hc₁', -⟩ := hfacing'.exists_ahead
  have hblock := hitems'.block (by rw [halone]) hstart hw₁' hc₁' hclose
  refine ⟨ds, ds', os, c₁, w₁, hitems, hc₁, hw₁, by rw [hblock], halike, fun htok => ?_⟩
  refine (hproductive htok).imp id fun hds hds' => hds ?_
  rw [hds'] at halike
  exact List.forall₂_nil_right_iff.1 halike

theorem map_shown_eq {ds ds' : List Diagnostic} (h : List.Forall₂ Diagnostic.Alike ds ds') :
    ds.map Diagnostic.shown = ds'.map Diagnostic.shown := by
  induction h with
  | nil => rfl
  | cons h _ ih => rw [List.map_cons, List.map_cons, h.shown, ih]

/-- The contents of a block are read segment by segment. -/
theorem exists_segmentBySegment (hp : ReadsItems p) {start eof stop : Lexeme}
    {w body after : List Lexeme} (hstart : start.token = .blockStart) (heof : eof.token = .eof)
    (hstop : stop.token = .blockEnd) (hbody : Layout.Segmented stop after body)
    (hproper : ∀ tok ∈ body, tok.IsProper) (hw : ∀ y ∈ w, y.token.isSeparator = true)
    (hc : c.ahead = w ++ (body ++ stop :: after)) :
    ∃ ds os c₁ w₁, Items p c ds os c₁ ∧ c₁.ahead = w₁ ++ stop :: after ∧
      (∀ y ∈ w₁, y.token.isSeparator = true) ∧ SegmentBySegment (block p) start eof
        (segments stop 0 body) (os.filterMap id) (ds.map Diagnostic.shown) := by
  induction hbody generalizing c w with
  | @last segment hsegment =>
    obtain ⟨ds, ds', os, c₁, w₁, hitems, hc₁, hw₁, hblock, halike, hproductive⟩ :=
      exists_segmentItems hp hstart heof hsegment hproper (by rw [hstop]; rfl) hstop rfl hw hc
    refine ⟨ds, os, c₁, w₁, hitems, hc₁, hw₁, ?_⟩
    rw [segments_last hsegment.closes, map_shown_eq halike]
    simpa using SegmentBySegment.nil.cons hblock hproductive
  | @cons segment sep body hsegment hsep hrest ih =>
    obtain ⟨hproper, -, hproper'⟩ : (∀ tok ∈ segment, tok.IsProper) ∧ sep.IsProper ∧
        ∀ tok ∈ body, tok.IsProper := by
      simpa only [List.forall_mem_append, List.forall_mem_cons] using hproper
    have hclose : ({ sep with token := .blockEnd } : Lexeme).token = .blockEnd := rfl
    have hahead : c.ahead = w ++ (segment ++ sep :: (body ++ stop :: after)) := by simpa using hc
    obtain ⟨ds, ds', os, c₁, w₁, hitems, hc₁, hw₁, hblock, halike, hproductive⟩ :=
      exists_segmentItems hp hstart heof hsegment hproper (by rw [hsep]; rfl) hclose rfl hw hahead
    have hnext : ∀ y ∈ w₁ ++ [sep], y.token.isSeparator = true := by
      simpa [or_imp, forall_and, hsep, Token.isSeparator] using hw₁
    obtain ⟨es, os', c₂, w₂, hitems', hc₂, hw₂, hothers⟩ := ih hproper' hnext (by simpa using hc₁)
    refine ⟨ds ++ es, os ++ os', c₂, w₂, hitems.append hitems', hc₂, hw₂, ?_⟩
    rw [segments_append hsegment.closes hsep, List.filterMap_append, List.map_append,
      map_shown_eq halike]
    exact hothers.cons hblock hproductive

theorem itemByItem_block (hp : ReadsItems p) {start stop : Lexeme} {body after : List Lexeme}
    (hstart : start.token = .blockStart) (heof : c.eof.token = .eof) (hstop : stop.token = .blockEnd)
    (hbody : Layout.Segmented stop after body) (hproper : ∀ tok ∈ body, tok.IsProper)
    (hc : c.ahead = start :: (body ++ stop :: after)) :
    ItemByItem (block p) c start (segments stop 0 body) := by
  obtain ⟨ds, os, c₁, w₁, hitems, hc₁, hw₁, hsegments⟩ :=
    exists_segmentBySegment (c := c.skip 1) (w := []) hp hstart heof hstop hbody hproper (by simp)
      (by simp [hc])
  have hblock := hitems.block hc hstart hw₁ hc₁ hstop
  exact ⟨os.filterMap id, by rw [hblock], by rw [hblock]; exact hsegments⟩

/-- A block is read to its end, and it has one. -/
theorem resumes_block (hp : ReadsItems p) {start stop : Lexeme} {body after : List Lexeme}
    (hstart : start.token = .blockStart) (hstop : stop.token = .blockEnd)
    (hcloses : blocksClose true 0 body = true) (hproper : ∀ tok ∈ body, tok.IsProper)
    (hc : c.ahead = start :: (body ++ stop :: after)) :
    Resumes (block p) c after ∧ ∀ d ∈ (block p c).1.diagnostics, d.problem.missesBlockEnd = false := by
  have hlastEnd : True → c.lastEnd = c.lastEnd := fun _ => rfl
  obtain ⟨ds, ds', as, c₁, c₁', hblock, hblock', halike, hc₁, -⟩ := exists_block hp hstart hcloses
    hproper (fun toks _ => ScansAlike.refl 0 toks _) hstop hc hc hlastEnd
  refine ⟨⟨as, c₁, by rw [Returns, hblock]; exact ⟨rfl, rfl⟩, hc₁⟩, ?_⟩
  obtain ⟨hreport, -⟩ := Prod.mk.inj (hblock.symm.trans hblock')
  obtain rfl : ds = ds' := congrArg Report.diagnostics hreport
  rw [hblock]
  intro d hd
  exact (List.forall₂_same.1 halike d hd).ended

end Parser

/-! ## Problems of scan and layout -/

namespace Lexeme

theorem Chunk.isUnexpected_meaning {c : Char} {cs : List Char} {problem : Problem}
    (h : (Chunk.read c cs).meaning = .error problem) : problem.isUnexpected = false := by
  unfold Chunk.read at h
  split at h
  case h_4 =>
    rw [blockComment] at h
    split at h
    · simp at h
    · exact Except.error.inj h ▸ rfl
  case h_11 =>
    simp only [word] at h
    split at h
    · simp at h
    · exact Except.error.inj h ▸ rfl
  all_goals simp [single, lineComment] at h

theorem isUnexpected_scanFrom (tabWidth : Nat) (m : Mark) (cs : List Char) :
    ∀ d ∈ (scanFrom tabWidth m cs).diagnostics, d.problem.isUnexpected = false := by
  fun_induction scanFrom tabWidth m cs with
  | case1 => simp
  | case2 _ _ _ _ ih => exact ih
  | case3 m c cs _ chunk next ih =>
    rw [TokenStream.diagnostics_append, Chunk.emit]
    refine List.forall_mem_append.2 ⟨?_, ih⟩
    split
    · simp
    · rename_i problem hmeaning
      simpa [Problem.at] using Chunk.isUnexpected_meaning hmeaning

end Lexeme

namespace Layout

theorem isUnexpected_resolve (toks : List Lexeme) :
    ∀ d ∈ (resolve toks).diagnostics, d.problem.isUnexpected = false := by
  intro d hd
  have hstage := (exists_mem_of_resolve toks d hd).1
  cases hproblem : d.problem with
  | unexpected expected found => simp [hproblem, Problem.stage] at hstage
  | _ => rfl

end Layout

namespace Source

variable {options : Options} {source : String} {c : Cursor} {levels : Nat}

/-! ## Texts -/

/-- The start of the tokens of a text. -/
def cursor (options : Options) (source : String) : Cursor := .ofLexemes (tokens options source).lexemes

/-- A cursor in the tokens of a text. -/
structure Within (options : Options) (source : String) (c : Cursor) : Prop where
  ahead : c.ahead <:+ (cursor options source).ahead
  eof : c.eof = (cursor options source).eof

/-- The tokens of a text close their blocks before the end of file. -/
theorem exists_rest (options : Options) (source : String) : ∃ out eof,
    cursor options source = ⟨out, eof, 0⟩ ∧ eof.token = .eof ∧ Layout.Rest [] out ∧
    ∀ tok ∈ out, tok.IsProper := by
  obtain ⟨pre, eof, out, hscan, heof, hout, hlaid, hpre, -⟩ := exists_laidOut options source
  have hraw : ∀ tok ∈ pre, tok.token ≠ .eof ∧ tok.token.isVirtual = false :=
    fun tok htok => ⟨(hpre tok htok).1.eof, (hpre tok htok).1.isVirtual⟩
  obtain ⟨out', hout', hrest⟩ := Layout.rest_resolve heof.1 hraw
  rw [← hscan] at hout'
  obtain rfl : out = out' := List.append_cancel_right (hout.symm.trans hout')
  refine ⟨out, eof, ?_, heof.1, hrest, fun tok htok => ⟨fun ht => ?_, fun ht => ?_⟩⟩
  · rw [cursor, hout, Cursor.ofLexemes_concat out heof.1]
  · have hmem := hlaid.mem_of_mem htok (by rw [ht]; rfl)
    exact (hpre tok (List.mem_of_mem_filter hmem)).1.eof ht
  · have hlt := (hpre tok (List.mem_of_mem_filter (hlaid.mem_of_mem htok ht))).2
    simpa [Span.isEmpty] using Nat.ne_of_lt hlt

/-- A block of a text has its end, and its contents are segments. -/
theorem exists_stop (hc : Within options source c) (hstart : c.token = .blockStart) :
    ∃ body stop after, c.ahead = c.current :: (body ++ stop :: after) ∧ stop.token = .blockEnd ∧
      Layout.Segmented stop after body ∧ (∀ tok ∈ body, tok.IsProper) ∧ c.eof.token = .eof := by
  obtain ⟨out, eof, hcursor, heof, hrest, hproper⟩ := exists_rest options source
  obtain ⟨⟨pre, hpre⟩, hceof⟩ := hc
  rw [hcursor] at hpre hceof
  have hend : c.eof.token = .eof := by rw [hceof]; exact heof
  have hahead := Cursor.ahead_eq_cons hend (by rw [hstart]; nofun)
  obtain rfl : pre ++ c.ahead = out := hpre
  obtain ⟨outer, hrest⟩ := hrest.of_append
  rw [hahead] at hrest hproper
  have hopen : Layout.Rest (.block :: outer) (c.ahead.drop 1) := by
    cases hrest with
    | close areEnds _ =>
      have hend : c.token = .blockEnd := areEnds c.current List.mem_cons_self
      rw [hstart] at hend
      exact absurd hend nofun
    | cons moves rest =>
      rw [← Cursor.token, hstart] at moves
      cases moves with
      | start => exact rest
      | opening h => simp at h
      | closing h => simp [Token.closesBracket] at h
      | stray h => simp [Token.closesBracket] at h
      | plain h => simp [Token.isVirtual] at h
  obtain ⟨body, stop, after, hbody, hstop, hsegmented, -⟩ := hopen.exists_stop
  rw [hbody] at hahead hproper
  exact ⟨body, stop, after, hahead, hstop, hsegmented, fun tok htok => hproper tok (by simp [htok]), hend⟩

theorem token_cursor (options : Options) (source : String) :
    (cursor options source).token = .blockStart := by
  obtain ⟨pre, eof, out, hscan, heof, hout, -, hpre, -⟩ := exists_laidOut options source
  obtain ⟨start, toks, hstart, ht⟩ :=
    Layout.exists_start_resolve heof.1 fun tok htok => (hpre tok htok).1.eof
  rw [← hscan] at hstart
  have hlexemes : out ++ [eof] = start :: toks := hout.symm.trans hstart
  cases out with
  | nil =>
    obtain ⟨rfl, -⟩ := List.cons.inj hlexemes
    rw [heof.1] at ht
    exact absurd ht nofun
  | cons tok out =>
    obtain ⟨rfl, -⟩ := List.cons.inj hlexemes
    have hahead : (cursor options source).ahead = tok :: out := by
      rw [cursor, hout, Cursor.ofLexemes_concat _ heof.1]
    rw [Cursor.token, Cursor.token_eq_of_ahead hahead, ht]

theorem within_cursor (options : Options) (source : String) :
    Within options source (cursor options source) :=
  ⟨List.suffix_rfl, rfl⟩

/-! ## Problems -/

theorem ended_of_isUnexpected {problem : Problem} (h : problem.isUnexpected = false) :
    problem.missesBlockEnd = false := by
  cases problem <;> first | rfl | simp [Problem.isUnexpected] at h

theorem ended_tokens (options : Options) (source : String) :
    ∀ d ∈ (tokens options source).diagnostics, d.problem.missesBlockEnd = false := by
  intro d hd
  rcases List.mem_append.1 hd with hd | hd
  · exact ended_of_isUnexpected (Lexeme.isUnexpected_scanFrom _ _ _ d hd)
  · exact ended_of_isUnexpected (Layout.isUnexpected_resolve _ d hd)

/-- The outermost block of a text is read without missing its end. -/
theorem ended_block {α : Type} {p : Parser α} (hp : Parser.ReadsItems p) (options : Options)
    (source : String) :
    ∀ d ∈ (Parser.block p (cursor options source)).1.settle.2, d.problem.missesBlockEnd = false := by
  obtain ⟨body, stop, after, hahead, hstop, hbody, hproper, -⟩ :=
    exists_stop (within_cursor options source) (token_cursor options source)
  obtain ⟨⟨as, c', ⟨hresult, -⟩, -⟩, hended⟩ := Parser.resumes_block hp
    (token_cursor options source) hstop hbody.blocksClose hproper hahead
  rw [Report.settle, hresult]
  exact hended

theorem ended_declarations (options : Options) (source : String) :
    ∀ d ∈ (declarations options source).2, d.problem.missesBlockEnd = false := by
  have hblock : ∀ d ∈ ((Parser.inner options options.maxNesting).decls
      (cursor options source)).1.settle.2, d.problem.missesBlockEnd = false := by
    cases options.maxNesting with
    | zero =>
      intro d hd
      exact List.mem_singleton.1 hd ▸ rfl
    | succ levels =>
      exact ended_block (Parser.readsItems_declaration (Parser.isSteady_inner options levels)) options source
  intro d hd
  rcases List.mem_append.1 hd with hd | hd
  · exact ended_tokens options source d hd
  · rcases List.mem_append.1 hd with hd | hd
    · exact hblock d hd
    · split at hd
      · simp at hd
      · rw [List.mem_singleton.1 hd]
        rfl

theorem ended_parseExpression {context : String} {ds : List Diagnostic}
    (h : parseExpression source context = .error ds) :
    ∀ d ∈ ds, d.problem.missesBlockEnd = false := by
  have hexprs : ∀ d ∈ (Parser.expressions {} ({} : Options).maxNesting (cursor {} source)).1.settle.2,
      d.problem.missesBlockEnd = false :=
    ended_block (Parser.readsItems_expr (Parser.isSteady_inner {} _)) {} source
  have hall : ∀ d ∈ (declarations {} context).2 ++ (tokens {} source).diagnostics ++
      (Parser.expressions {} ({} : Options).maxNesting (cursor {} source)).1.settle.2,
      d.problem.missesBlockEnd = false :=
    List.forall_mem_append.2 ⟨List.forall_mem_append.2 ⟨ended_declarations {} context,
      ended_tokens {} source⟩, hexprs⟩
  simp only [parseExpression] at h
  split at h
  · rename_i e _ _
    have hresolve := Fixity.isOwn_resolveIn ({} : Options).maxNesting (declarations {} context).1 e
    split at h
    · simp at h
    · rename_i resolved _ hresolved
      obtain rfl := Except.error.inj h
      intro d hd
      refine ended_of_isUnexpected (hresolve d ?_)
      rw [hresolved]
      exact (Diagnostic.sort_perm _).mem_iff.1 hd
  · obtain rfl := Except.error.inj h
    simp [Problem.at, Problem.missesBlockEnd]
  · obtain rfl := Except.error.inj h
    exact hall

/-- Whatever its items hold, a block is read to the end that matches its start,
and the parser goes on behind it. No block is ever found without an end. -/
theorem block_resumes (options : Options) (source : String) :
    (∀ c levels, Within options source c → c.token = .blockStart →
      ∃ body stop after, c.ahead = c.current :: (body ++ stop :: after) ∧
        blocksClose true 0 body = true ∧ stop.token = .blockEnd ∧
        (Parser.inner options (levels + 1)).decls.Resumes c after ∧
        (Parser.inner options (levels + 1)).constructors.Resumes c after ∧
        (Parser.inner options (levels + 1)).members.Resumes c after ∧
        (Parser.expressions options (levels + 1)).Resumes c after) ∧
    (∀ d ∈ (parse options source).diagnostics, d.problem.missesBlockEnd = false) ∧
    ∀ context ds, parseExpression source context = .error ds →
      ∀ d ∈ ds, d.problem.missesBlockEnd = false := by
  refine ⟨fun c levels hc hstart => ?_, fun d hd => ?_, fun context ds => ended_parseExpression⟩
  · obtain ⟨body, stop, after, hahead, hstop, hbody, hproper, -⟩ := exists_stop hc hstart
    have hinner := Parser.isSteady_inner options levels
    have hresumes : ∀ {α : Type} {p : Parser α}, p.ReadsItems → (Parser.block p).Resumes c after :=
      fun hp => (Parser.resumes_block hp hstart hstop hbody.blocksClose hproper hahead).1
    exact ⟨body, stop, after, hahead, hbody.blocksClose, hstop,
      hresumes (Parser.readsItems_declaration hinner),
      hresumes (Parser.readsItems_constructorSignature hinner),
      hresumes (Parser.readsItems_member hinner), hresumes (Parser.readsItems_expr hinner)⟩
  · rw [diagnostics_parse] at hd
    rcases List.mem_append.1 ((Diagnostic.sort_perm _).mem_iff.1 hd) with hd | hd
    · exact ended_declarations options source d hd
    · exact ended_of_isUnexpected (Fixity.isOwn_resolveFile _ _ d hd)

/-- The file body of a text with an open bracket, a stray one and an `in` without
`let` ends where the text does. -/
theorem block_resumes_strays :
    ∃ body stop after, (cursor {} "f = (a where\n  b \x7d = ) in\n  c : (\n").ahead =
        (cursor {} "f = (a where\n  b \x7d = ) in\n  c : (\n").current :: (body ++ stop :: after) ∧
      blocksClose true 0 body = true ∧ stop.token = .blockEnd ∧
      (Parser.inner {} 1).decls.Resumes (cursor {} "f = (a where\n  b \x7d = ) in\n  c : (\n") after := by
  have hstart : (cursor {} "f = (a where\n  b \x7d = ) in\n  c : (\n").token = .blockStart := by
    decide +kernel
  obtain ⟨body, stop, after, hahead, hbody, hstop, hdecls, -⟩ :=
    (block_resumes {} "f = (a where\n  b \x7d = ) in\n  c : (\n").1 _ 0 ⟨List.suffix_rfl, rfl⟩ hstart
  exact ⟨body, stop, after, hahead, hbody, hstop, hdecls⟩

/-- The items of a block and the problems in them are those of its segments, each
read alone. The file body is such a block, and so are all blocks inside. -/
theorem block_itemByItem (options : Options) (source : String) :
    (Within options source (cursor options source) ∧ (cursor options source).token = .blockStart) ∧
    ∀ c levels, Within options source c → c.token = .blockStart →
      ∃ body stop after, c.ahead = c.current :: (body ++ stop :: after) ∧
        blocksClose true 0 body = true ∧ stop.token = .blockEnd ∧
        (Parser.inner options (levels + 1)).decls.ItemByItem c c.current (segments stop 0 body) ∧
        (Parser.inner options (levels + 1)).constructors.ItemByItem c c.current (segments stop 0 body) ∧
        (Parser.inner options (levels + 1)).members.ItemByItem c c.current (segments stop 0 body) ∧
        (Parser.expressions options (levels + 1)).ItemByItem c c.current (segments stop 0 body) := by
  refine ⟨⟨within_cursor options source, token_cursor options source⟩, fun c levels hc hstart => ?_⟩
  obtain ⟨body, stop, after, hahead, hstop, hbody, hproper, heof⟩ := exists_stop hc hstart
  have hinner := Parser.isSteady_inner options levels
  have hitems : ∀ {α : Type} {p : Parser α}, p.ReadsItems →
      (Parser.block p).ItemByItem c c.current (segments stop 0 body) :=
    fun hp => Parser.itemByItem_block hp hstart heof hstop hbody hproper hahead
  exact ⟨body, stop, after, hahead, hbody.blocksClose, hstop,
    hitems (Parser.readsItems_declaration hinner),
    hitems (Parser.readsItems_constructorSignature hinner),
    hitems (Parser.readsItems_member hinner), hitems (Parser.readsItems_expr hinner)⟩

/-- Three items, of which the second does not parse and the third opens a bracket
that nothing closes. -/
theorem block_itemByItem_strays :
    ∃ body stop after, (cursor {} "a = b\n) : = c\nd = (e\n").ahead =
        (cursor {} "a = b\n) : = c\nd = (e\n").current :: (body ++ stop :: after) ∧
      blocksClose true 0 body = true ∧ stop.token = .blockEnd ∧
      (Parser.inner {} 64).decls.ItemByItem (cursor {} "a = b\n) : = c\nd = (e\n")
        (cursor {} "a = b\n) : = c\nd = (e\n").current (segments stop 0 body) := by
  have hstart : (cursor {} "a = b\n) : = c\nd = (e\n").token = .blockStart := by decide +kernel
  obtain ⟨body, stop, after, hahead, hbody, hstop, hdecls, -⟩ :=
    (block_itemByItem {} "a = b\n) : = c\nd = (e\n").2 _ 63 ⟨List.suffix_rfl, rfl⟩ hstart
  exact ⟨body, stop, after, hahead, hbody, hstop, hdecls⟩

end Source

end Offside
