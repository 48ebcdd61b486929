-- SUMMARY: The lines, columns and line starts of lexemes, counted from the start of the text.
import Offside.Lexeme.Column
import Offside.Proofs.Source.Positions

/-! # Lines and columns of lexemes

A scan carries a mark along and moves it character by character, so that a
comment of several lines or a number that is too large needs no care of its own.
`Mark.Counts` says where a mark stands by what has been read, and
`Mark.Follows` what it knows of the lexemes so far. Both hold along every scan:
lexemes stand at the positions that are counted from the start of the text, and
a line start is the first token of its line: `positioned_scan`. -/

namespace Offside

namespace Text

theorem lastLine_concat (cs : List Char) (c : Char) :
    lastLine (cs ++ [c]) = if c = '\n' then [] else lastLine cs ++ [c] := by
  by_cases hc : c = '\n' <;> simp [lastLine, hc]

end Text

namespace Lexeme

/-- The first token of its line, when `earlier` stand before it. Comments and the
end of file do not count. -/
structure Begins (earlier : List Lexeme) (tok : Lexeme) : Prop where
  isComment : tok.token.isComment = false
  ne_eof : tok.token ≠ .eof
  first : ∀ e ∈ earlier, e.token.isComment = false → e.line ≠ tok.line

/-- A lexeme with the line of its start in `source`, and with the column too,
where tabs do not make a difference. -/
structure Located (tabWidth : Nat) (source : String) (tok : Lexeme) : Prop where
  exists_position : ∃ before first last, Text.before? source.toList tok.span.start = some before ∧
    tok.span.positions? source = some (first, last) ∧ tok.line = first.line ∧
    ('\t' ∉ Text.lastLine before ∨ tabWidth ≤ 1 → tok.column = first.column)

/-! ## Marks -/

namespace Mark

/-- A mark behind the text `before`. -/
structure Counts (tabWidth : Nat) (before : List Char) (m : Mark) : Prop where
  offset : m.offset = Text.byteLength before
  line : m.line = (Position.after before).line
  column : '\t' ∉ Text.lastLine before ∨ tabWidth ≤ 1 → m.column = (Position.after before).column

variable {tabWidth : Nat} {before : List Char} {m : Mark}

theorem column_past {c : Char} (hc : c ≠ '\n') (h : c ≠ '\t' ∨ tabWidth ≤ 1) (hpos : 0 < m.column) :
    (m.past tabWidth c).column = m.column + 1 := by
  rw [past, if_neg hc]
  dsimp only
  split
  · rename_i htab
    obtain rfl : tabWidth = 1 := by
      have := h.resolve_left (by simp [htab.1])
      omega
    rw [Nat.div_one]
    omega
  · rfl

/-- Reading one more character. -/
theorem Counts.past (h : m.Counts tabWidth before) (c : Char) :
    (m.past tabWidth c).Counts tabWidth (before ++ [c]) := by
  have hoffset : (m.past tabWidth c).offset = Text.byteLength (before ++ [c]) := by
    rw [offset_past, h.offset]
    simp
  by_cases hc : c = '\n'
  · subst hc
    refine ⟨hoffset, ?_, fun _ => ?_⟩
    · simp [Mark.past, Position.after_concat, h.line]
    · simp [Mark.past, Position.after_concat]
  · refine ⟨hoffset, ?_, fun htabs => ?_⟩
    · simp [Mark.past, Position.after_concat, hc, h.line]
    · rw [Text.lastLine_concat, if_neg hc] at htabs
      have hcolumn : m.column = (Position.after before).column := by
        refine h.column (htabs.imp_left fun hno hmem => hno ?_)
        exact List.mem_append_left _ hmem
      have hpos : 0 < m.column := by
        rw [hcolumn]
        exact Nat.succ_pos _
      have hno : c ≠ '\t' ∨ tabWidth ≤ 1 := by
        refine htabs.imp_left fun hno htab => hno ?_
        simp [htab]
      rw [column_past hc hno hpos, hcolumn, Position.after_concat, if_neg hc]

theorem Counts.pastAll (h : m.Counts tabWidth before) (cs : List Char) :
    (m.pastAll tabWidth cs).Counts tabWidth (before ++ cs) := by
  induction cs generalizing m before with
  | nil =>
    rw [List.append_nil]
    exact h
  | cons c cs ih =>
    have hrest := ih (h.past c)
    rwa [List.append_assoc] at hrest

/-- Whether the line is fresh does not count. -/
theorem Counts.next (h : m.Counts tabWidth before) (chunk : Chunk) :
    (chunk.next tabWidth m).Counts tabWidth (before ++ chunk.text) := by
  unfold Chunk.next
  split
  · rename_i t _
    have hused : ({ m with fresh := m.fresh && t.isComment } : Mark).Counts tabWidth before :=
      ⟨h.offset, h.line, h.column⟩
    exact hused.pastAll chunk.text
  · have hpast := h.pastAll chunk.text
    exact ⟨hpast.offset, hpast.line, hpast.column⟩

theorem counts_start : start.Counts tabWidth [] := ⟨rfl, rfl, fun _ => rfl⟩

/-- A mark behind the lexemes `earlier`: none of them is on a later line, and the
line of the mark is fresh if it holds none of them but comments. -/
structure Follows (earlier : List Lexeme) (m : Mark) : Prop where
  le : ∀ e ∈ earlier, e.line ≤ m.line
  fresh : m.fresh = true ↔ ∀ e ∈ earlier, e.token.isComment = false → e.line ≠ m.line

variable {earlier : List Lexeme}

theorem Follows.past (h : m.Follows earlier) (c : Char) : (m.past tabWidth c).Follows earlier := by
  by_cases hc : c = '\n'
  · subst hc
    refine ⟨fun e he => ?_, ?_⟩
    · exact Nat.le_succ_of_le (h.le e he)
    · simp only [Mark.past, if_pos, true_iff]
      intro e he _
      have hle := h.le e he
      omega
  · have hline : (m.past tabWidth c).line = m.line := by rw [Mark.past, if_neg hc]
    have hfresh : (m.past tabWidth c).fresh = m.fresh := by rw [Mark.past, if_neg hc]
    exact ⟨hline ▸ h.le, by rw [hline, hfresh]; exact h.fresh⟩

theorem Follows.pastAll (h : m.Follows earlier) (cs : List Char) :
    (m.pastAll tabWidth cs).Follows earlier := by
  induction cs generalizing m with
  | nil => exact h
  | cons c cs ih => exact ih (h.past c)

theorem follows_start : start.Follows [] := ⟨by simp, by simp [start]⟩

end Mark

/-! ## Lexemes -/

/-- Lexemes behind `earlier` in `source`, with the right lines, columns and line
starts. -/
inductive Placed (tabWidth : Nat) (source : String) : (earlier : List Lexeme) → List Lexeme → Prop
  | nil {earlier} : Placed tabWidth source earlier []
  | cons {earlier tok toks} (located : tok.Located tabWidth source)
      (lineStart : tok.lineStart = true ↔ tok.Begins earlier)
      (rest : Placed tabWidth source (earlier ++ [tok]) toks) :
      Placed tabWidth source earlier (tok :: toks)

/-- A lexeme that is made at a mark. -/
theorem Mark.Counts.located {tabWidth : Nat} {source : String} {before text after : List Char}
    {m : Mark} {tok : Lexeme} (h : m.Counts tabWidth before)
    (hsource : source.toList = before ++ (text ++ after))
    (hspan : tok.span = ⟨m.offset, m.offset + Text.byteLength text⟩) (hline : tok.line = m.line)
    (hcolumn : tok.column = m.column) : tok.Located tabWidth source := by
  have hassoc : source.toList = (before ++ text) ++ after := by rw [hsource, List.append_assoc]
  have hstart : Text.before? source.toList tok.span.start = some before := by
    rw [hspan, h.offset, hsource, Text.before?, Text.splitAt?_byteLength]
    rfl
  have hstop : Text.before? source.toList tok.span.stop = some (before ++ text) := by
    rw [hspan, h.offset, ← Text.byteLength_append, hassoc, Text.before?, Text.splitAt?_byteLength]
    rfl
  refine ⟨before, .after before, .after (before ++ text), hstart, ?_, hline.trans h.line,
    fun htabs => hcolumn.trans (h.column htabs)⟩
  have hle : tok.span.start ≤ tok.span.stop := by
    rw [hspan]
    exact Nat.le_add_right _ _
  rw [Span.positions?, if_pos hle, hstart, hstop]
  rfl

/-- A lexeme at the mark uses up the line, unless it is a comment. -/
theorem Mark.Follows.concat {earlier : List Lexeme} {m : Mark} (h : m.Follows earlier) {tok : Lexeme}
    (hline : tok.line = m.line) :
    ({ m with fresh := m.fresh && tok.token.isComment } : Mark).Follows (earlier ++ [tok]) := by
  refine ⟨List.forall_mem_append.2 ⟨h.le, by simp [hline]⟩, ?_⟩
  rw [List.forall_mem_append, List.forall_mem_singleton, Bool.and_eq_true, h.fresh]
  simp [hline]

/-- What has a problem is a word, or a comment that is open up to the end. -/
theorem Chunk.eq_word_or_of_error {c : Char} {cs : List Char} {problem : Problem} :
    (read c cs).meaning = .error problem → read c cs = word c cs ∨ (read c cs).rest = [] := by
  unfold read
  split <;> intro h
  · cases h
  · cases h
  · cases h
  · rw [blockComment] at h ⊢
    split at h
    · cases h
    · exact .inr rfl
  · cases h
  · cases h
  · cases h
  · cases h
  · cases h
  · cases h
  · exact .inl rfl

theorem Chunk.newline_notMem_word {c : Char} (cs : List Char) (hc : Text.isBlank c = false) :
    '\n' ∉ (word c cs).text := by
  have hnewline : Text.isBlank '\n' = true := rfl
  intro hmem
  rcases List.mem_cons.1 hmem with rfl | hmem
  · exact Bool.false_ne_true (hc.symm.trans hnewline)
  · have hword := List.mem_takeWhile_imp hmem
    simp [Token.isWordChar, hnewline] at hword

/-- Behind a chunk its lexeme, if it has one, is one of the earlier ones. At the end
of a text nothing is said of an open comment. -/
theorem Mark.Follows.next {tabWidth : Nat} {earlier : List Lexeme} {m : Mark} {c : Char}
    {cs : List Char} (hc : Text.isBlank c = false) (h : m.Follows earlier) (stop : Nat)
    (hrest : (Chunk.read c cs).rest ≠ []) : ((Chunk.read c cs).next tabWidth m).Follows
      (earlier ++ ((Chunk.read c cs).emit m stop).lexemes) := by
  cases hmeaning : (Chunk.read c cs).meaning with
  | ok t =>
    rw [Chunk.next_of_ok hmeaning, Chunk.emit_of_ok hmeaning]
    exact (h.concat rfl).pastAll _
  | error problem =>
    have hword := (Chunk.eq_word_or_of_error hmeaning).resolve_right hrest
    have hfresh : (m.pastAll tabWidth (Chunk.read c cs).text).fresh = m.fresh :=
      fresh_pastAll (hword ▸ Chunk.newline_notMem_word cs hc)
    rw [Chunk.next_of_error hmeaning, Chunk.emit_of_error hmeaning, List.append_nil, ← hfresh]
    exact h.pastAll _

/-- What is at the end of the text starts no line, so before it nothing is asked of
the earlier lexemes. -/
theorem placed_scanFrom {source : String} (tabWidth : Nat) (m : Mark) (cs : List Char) :
    ∀ before earlier, source.toList = before ++ cs → m.Counts tabWidth before →
      (cs ≠ [] → m.Follows earlier) →
      Placed tabWidth source earlier (scanFrom tabWidth m cs).lexemes := by
  fun_induction scanFrom tabWidth m cs with
  | case1 m =>
    intro before earlier hsource hm hearlier
    have hend : source.toList = before ++ ([] ++ []) := hsource
    refine .cons (hm.located hend rfl rfl rfl) ?_ .nil
    exact ⟨fun h => absurd h Bool.false_ne_true, fun h => absurd rfl h.ne_eof⟩
  | case2 m c cs _ ih =>
    intro before earlier hsource hm hearlier
    have hpast : source.toList = (before ++ [c]) ++ cs := by rw [hsource, List.append_assoc]; rfl
    exact ih _ _ hpast (hm.past c) fun _ => (hearlier (List.cons_ne_nil c cs)).past c
  | case3 m c cs hc chunk next ih =>
    intro before earlier hsource hm hearlier
    have hearlier := hearlier (List.cons_ne_nil c cs)
    have htext : source.toList = before ++ (chunk.text ++ chunk.rest) := by
      rw [hsource, Chunk.text_append_rest]
    have hnext : next.offset = m.offset + Text.byteLength chunk.text :=
      Chunk.offset_next tabWidth m chunk
    have hrest := ih _ _ (by rw [htext, List.append_assoc]) (hm.next chunk)
      (hearlier.next (by simpa using hc) next.offset)
    rw [TokenStream.lexemes_append]
    cases hmeaning : chunk.meaning with
    | ok t =>
      rw [Chunk.emit_of_ok hmeaning] at hrest ⊢
      refine .cons (hm.located htext (by rw [hnext]) rfl rfl) ?_ hrest
      have hraw := (Chunk.isRaw_meaning hmeaning).eof
      simp only [Bool.and_eq_true, Bool.not_eq_true', hearlier.fresh]
      exact ⟨fun h => ⟨h.2, hraw, h.1⟩, fun h => ⟨h.first, h.isComment⟩⟩
    | error problem =>
      rw [Chunk.emit_of_error hmeaning] at hrest ⊢
      simpa using hrest

/-! ## Whole texts -/

/-- The lexemes of `source` where a reader finds them. -/
structure Positioned (tabWidth : Nat) (source : String) (toks : List Lexeme) : Prop where
  located : ∀ tok ∈ toks, tok.Located tabWidth source
  lineStart : ∀ earlier tok later, toks = earlier ++ tok :: later →
    (tok.lineStart = true ↔ tok.Begins earlier)

theorem Placed.forall {tabWidth : Nat} {source : String} {before toks : List Lexeme}
    (h : Placed tabWidth source before toks) : (∀ tok ∈ toks, tok.Located tabWidth source) ∧
      ∀ earlier tok later, toks = earlier ++ tok :: later →
        (tok.lineStart = true ↔ tok.Begins (before ++ earlier)) := by
  induction h with
  | nil => simp
  | @cons before first toks located lineStart _ ih =>
    refine ⟨List.forall_mem_cons.2 ⟨located, ih.1⟩, fun earlier tok later htoks => ?_⟩
    cases earlier with
    | nil =>
      obtain ⟨rfl, rfl⟩ := List.cons.inj htoks
      simpa using lineStart
    | cons e earlier =>
      obtain ⟨rfl, rfl⟩ := List.cons.inj htoks
      simpa using ih.2 earlier tok later rfl

theorem Placed.positioned {tabWidth : Nat} {source : String} {toks : List Lexeme}
    (h : Placed tabWidth source [] toks) : Positioned tabWidth source toks :=
  ⟨h.forall.1, h.forall.2⟩

theorem placed_scan (tabWidth : Nat) (source : String) :
    Placed tabWidth source [] (scan tabWidth source).lexemes :=
  placed_scanFrom tabWidth .start source.toList [] [] rfl Mark.counts_start
    fun _ => Mark.follows_start

end Lexeme

end Offside
