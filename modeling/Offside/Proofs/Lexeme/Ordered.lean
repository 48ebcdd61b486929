-- SUMMARY: Lexemes as stretches of a text one after another, and that a scan gives such lexemes.
import Offside.Proofs.Expr.Spanned
import Offside.Proofs.Lexeme.Scanned

/-! # Lexemes in the order of a text

A scan counts bytes as it goes, so its offsets are boundaries between the
characters of the text, and no lexeme starts before the one before it ends:
`ordered_scan`. Its problems are at such stretches too: `sited_scan`. -/

namespace Offside

/-- A problem at a stretch of `source`. -/
def Diagnostic.Sited (source : String) (d : Diagnostic) : Prop :=
  d.span.Lies source ⟨0, source.utf8ByteSize⟩

/-- A problem at something that lies in the text. -/
theorem Span.Lies.sited {source : String} {span outer : Span} (h : span.Lies source outer)
    (problem : Problem) : (problem.at span).Sited source :=
  lies_of h.start h.stop h.le (Nat.zero_le _) h.bounded

namespace Lexeme

/-- A lexeme as a stretch of `source`. Only markers and ends of file may be
without text, and an end of file is. -/
structure Stands (source : String) (tok : Lexeme) : Prop where
  le : tok.span.start ≤ tok.span.stop
  start : Text.IsBoundary source tok.span.start
  stop : Text.IsBoundary source tok.span.stop
  width : tok.token.isVirtual = false → tok.token ≠ .eof → tok.span.start < tok.span.stop
  eof : tok.token = .eof → tok.span.isEmpty = true

/-- A problem at a lexeme. -/
theorem Stands.sited {source : String} {tok : Lexeme} (h : tok.Stands source) (problem : Problem) :
    (problem.at tok.span).Sited source :=
  Span.lies_of h.start h.stop h.le (Nat.zero_le _) h.stop.le

/-- Lexemes of `source` from `offset` on, one after another. -/
inductive Ordered (source : String) : (offset : Nat) → List Lexeme → Prop
  | nil {offset} : Ordered source offset []
  | cons {offset tok toks} (after : offset ≤ tok.span.start) (first : tok.Stands source)
      (rest : Ordered source tok.span.stop toks) : Ordered source offset (tok :: toks)

namespace Ordered

variable {source : String} {offset offset' : Nat} {toks toks' : List Lexeme}

theorem mono (h : Ordered source offset toks) (hle : offset' ≤ offset) :
    Ordered source offset' toks := by
  cases h with
  | nil => exact .nil
  | cons after first rest => exact .cons (Nat.le_trans hle after) first rest

theorem le_of_mem {tok : Lexeme} (h : Ordered source offset toks) (htok : tok ∈ toks) :
    offset ≤ tok.span.start := by
  induction h with
  | nil => simp at htok
  | cons after first _ ih =>
    rcases List.mem_cons.1 htok with rfl | htok
    · exact after
    · exact Nat.le_trans (Nat.le_trans after first.le) (ih htok)

theorem stands_of_mem {tok : Lexeme} (h : Ordered source offset toks) (htok : tok ∈ toks) :
    tok.Stands source := by
  induction h with
  | nil => simp at htok
  | cons _ first _ ih =>
    rcases List.mem_cons.1 htok with rfl | htok
    · exact first
    · exact ih htok

/-- What is left when lexemes are left out. -/
theorem sublist (hsub : toks'.Sublist toks) (h : Ordered source offset toks) :
    Ordered source offset toks' := by
  induction hsub generalizing offset with
  | slnil => exact .nil
  | cons tok _ ih =>
    cases h with
    | cons after first rest => exact (ih rest).mono (Nat.le_trans after first.le)
  | cons_cons tok _ ih =>
    cases h with
    | cons after first rest => exact .cons after first (ih rest)

end Ordered

/-! ## Scanning -/

theorem Mark.offset_pastAll (tabWidth : Nat) (m : Mark) (cs : List Char) :
    (m.pastAll tabWidth cs).offset = m.offset + Text.byteLength cs := by
  induction cs generalizing m with
  | nil => rfl
  | cons c cs ih =>
    have hrest : (m.pastAll tabWidth (c :: cs)).offset =
        (m.past tabWidth c).offset + Text.byteLength cs := ih _
    rw [hrest, offset_past, Text.byteLength_cons, Nat.add_assoc]

theorem Chunk.offset_next (tabWidth : Nat) (m : Mark) (chunk : Chunk) :
    (chunk.next tabWidth m).offset = m.offset + Text.byteLength chunk.text := by
  cases h : chunk.meaning with
  | ok t => rw [next_of_ok h, Mark.offset_pastAll]
  | error problem =>
    rw [next_of_error h]
    exact Mark.offset_pastAll tabWidth m chunk.text

/-- A mark in `source` before the text `cs`. -/
structure Mark.At (source : String) (m : Mark) (cs : List Char) : Prop where
  exists_before : ∃ before, source.toList = before ++ cs ∧ m.offset = Text.byteLength before

namespace Mark.At

variable {source : String} {m m' : Mark} {text cs : List Char}

theorem isBoundary (h : m.At source cs) : Text.IsBoundary source m.offset := by
  obtain ⟨before, hsource, hoffset⟩ := h
  rw [hoffset]
  exact Text.isBoundary_of_eq_append hsource

/-- The mark behind a stretch of text. -/
theorem past (text : List Char) (h : m.At source (text ++ cs))
    (hoffset : m'.offset = m.offset + Text.byteLength text) : m'.At source cs := by
  obtain ⟨before, hsource, hbefore⟩ := h
  refine ⟨before ++ text, ?_, ?_⟩
  · rw [hsource, List.append_assoc]
  · rw [hoffset, hbefore, Text.byteLength_append]

/-- The mark behind a chunk. -/
theorem chunk (tabWidth : Nat) {c : Char} (h : m.At source (c :: cs)) :
    ((Chunk.read c cs).next tabWidth m).At source (Chunk.read c cs).rest := by
  rw [← Chunk.text_append_rest c cs] at h
  exact h.past _ (Chunk.offset_next tabWidth m _)

end Mark.At

theorem ordered_scanFrom {source : String} (tabWidth : Nat) (m : Mark) (cs : List Char)
    (hm : m.At source cs) : Ordered source m.offset (scanFrom tabWidth m cs).lexemes := by
  fun_induction scanFrom tabWidth m cs with
  | case1 m =>
    refine .cons (Nat.le_refl _) ?_ .nil
    exact ⟨Nat.le_refl _, hm.isBoundary, hm.isBoundary, fun _ h => absurd rfl h,
      fun _ => Span.isEmpty_point _⟩
  | case2 m c cs _ ih =>
    have hpast := Mark.offset_past tabWidth m c
    exact (ih (hm.past [c] hpast)).mono (by omega)
  | case3 m c cs _ chunk next ih =>
    have hlt := Chunk.lt_offset_next tabWidth m c cs
    have hnext : next.At source chunk.rest := hm.chunk tabWidth
    rw [TokenStream.lexemes_append, Chunk.emit]
    split
    · rename_i t ht
      refine .cons (Nat.le_refl _) ?_ (ih hnext)
      exact ⟨Nat.le_of_lt hlt, hm.isBoundary, hnext.isBoundary, fun _ _ => hlt,
        fun h => absurd h (Chunk.isRaw_meaning ht).eof⟩
    · exact (ih hnext).mono (Nat.le_of_lt hlt)

/-- The lexemes of a text stand in it one after another. -/
theorem ordered_scan (tabWidth : Nat) (source : String) :
    Ordered source 0 (scan tabWidth source).lexemes :=
  ordered_scanFrom tabWidth .start source.toList ⟨[], rfl, rfl⟩

theorem sited_scanFrom {source : String} (tabWidth : Nat) (m : Mark) (cs : List Char)
    (hm : m.At source cs) : ∀ d ∈ (scanFrom tabWidth m cs).diagnostics, d.Sited source := by
  fun_induction scanFrom tabWidth m cs with
  | case1 => simp
  | case2 m c cs _ ih => exact ih (hm.past [c] (Mark.offset_past tabWidth m c))
  | case3 m c cs _ chunk next ih =>
    have hnext : next.At source chunk.rest := hm.chunk tabWidth
    rw [TokenStream.diagnostics_append, Chunk.emit]
    refine List.forall_mem_append.2 ⟨?_, ih hnext⟩
    split
    · simp
    · exact List.forall_mem_singleton.2 (Span.lies_of hm.isBoundary hnext.isBoundary
        (Nat.le_of_lt (Chunk.lt_offset_next tabWidth m c cs)) (Nat.zero_le _) hnext.isBoundary.le)

/-- The problems of a scan are at stretches of the text. -/
theorem sited_scan (tabWidth : Nat) (source : String) :
    ∀ d ∈ (scan tabWidth source).diagnostics, d.Sited source :=
  sited_scanFrom tabWidth .start source.toList ⟨[], rfl, rfl⟩

end Lexeme

end Offside
