-- SUMMARY: When the columns of a text fit in 32 bits, and how they grow along a line.
import Mathlib.Data.List.Induction
import Offside.Proofs.Source.Lines

/-! # Columns that fit in 32 bits

`Column.reach` is the column behind a stretch of a line in numbers of any size. It
grows with every character, so the checked count fails at the first column that
does not fit, and at no intermediate result before: `Column.at?_eq`. How far a
line reaches depends on its tabs as well as on its length, so no bound on the
length alone will do, unless tabs are at most one column wide. -/

namespace Offside

theorem Text.newline_notMem_lastLine (cs : List Char) : '\n' ∉ Text.lastLine cs := by
  intro hmem
  have h := List.mem_takeWhile_imp (List.mem_reverse.1 hmem)
  simp at h

theorem Text.sublist_lastLine (cs : List Char) : (Text.lastLine cs).Sublist cs := by
  have h := (List.takeWhile_sublist (l := cs.reverse) (· ≠ '\n')).reverse
  rwa [List.reverse_reverse] at h

namespace Column

/-! ## Columns of any size -/

/-- The column behind the character `c`, in numbers of any size. -/
def past (tabWidth column : Nat) (c : Char) : Nat :=
  if c = '\t' ∧ 0 < tabWidth then ((column - 1) / tabWidth + 1) * tabWidth + 1 else column + 1

/-- The column behind the text `line`, which starts a line, as a scan counts it. -/
def reach (tabWidth : Nat) (line : List Char) : Nat :=
  (Lexeme.Mark.start.pastAll tabWidth line).column

theorem column_mark_past {tabWidth : Nat} {m : Lexeme.Mark} {c : Char} (hc : c ≠ '\n') :
    (m.past tabWidth c).column = past tabWidth m.column c := by
  rw [Lexeme.Mark.past, if_neg hc, past]

variable {tabWidth : Nat} {line : List Char} {c : Char}

theorem reach_concat (hc : c ≠ '\n') :
    reach tabWidth (line ++ [c]) = past tabWidth (reach tabWidth line) c := by
  rw [reach, Lexeme.Mark.pastAll, List.foldl_append]
  exact column_mark_past hc

/-- A column grows by one, or to the next tab stop. -/
theorem lt_past (tabWidth : Nat) (c : Char) {column : Nat} (hpos : 0 < column) :
    column < past tabWidth column c := by
  unfold past
  split
  · rename_i htab
    have hlt := (Nat.div_lt_iff_lt_mul htab.2).1 (Nat.lt_succ_self ((column - 1) / tabWidth))
    rw [Nat.succ_eq_add_one] at hlt
    omega
  · exact Nat.lt_succ_self column

theorem past_le (tabWidth : Nat) (c : Char) {column : Nat} (hpos : 0 < column) :
    past tabWidth column c ≤ column + 1 + if c = '\t' then tabWidth - 1 else 0 := by
  unfold past
  split
  · rename_i htab
    have hle := Nat.div_mul_le_self (column - 1) tabWidth
    rw [if_pos htab.1, Nat.add_mul, Nat.one_mul]
    omega
  · omega

theorem past_tab (htab : 0 < tabWidth) (column : Nat) :
    ∃ n, 0 < n ∧ past tabWidth column '\t' = n * tabWidth + 1 :=
  ⟨(column - 1) / tabWidth + 1, Nat.succ_pos _, if_pos ⟨rfl, htab⟩⟩

theorem reach_pos (tabWidth : Nat) (hline : '\n' ∉ line) : 0 < reach tabWidth line := by
  induction line using List.reverseRecOn with
  | nil => exact Nat.one_pos
  | append_singleton line c ih =>
    rw [List.mem_append, not_or, List.mem_singleton] at hline
    rw [reach_concat (Ne.symm hline.2)]
    exact Nat.lt_of_le_of_lt (Nat.zero_le _) (lt_past tabWidth c (ih hline.1))

/-- A line reaches no further than its length and its tabs together. -/
theorem reach_le (tabWidth : Nat) (hline : '\n' ∉ line) :
    reach tabWidth line ≤ line.length + line.count '\t' * (tabWidth - 1) + 1 := by
  induction line using List.reverseRecOn with
  | nil => simp [reach, Lexeme.Mark.pastAll, Lexeme.Mark.start]
  | append_singleton line c ih =>
    rw [List.mem_append, not_or, List.mem_singleton] at hline
    have hle := ih hline.1
    have hpast := past_le tabWidth c (reach_pos tabWidth hline.1)
    rw [reach_concat (Ne.symm hline.2), List.length_append, List.length_singleton,
      List.count_append, Nat.add_mul]
    by_cases hc : c = '\t'
    · subst hc
      rw [if_pos rfl] at hpast
      rw [List.count_singleton_self, Nat.one_mul]
      omega
    · rw [if_neg hc] at hpast
      omega

/-! ## Columns of 32 bits -/

theorem fit?_eq_some_iff {n : Nat} {k : UInt32} : fit? n = some k ↔ k.toNat = n := by
  unfold fit?
  split
  · rename_i hn
    rw [Option.some.injEq, ← UInt32.toNat_inj, UInt32.toNat_ofNat_of_lt' hn]
    exact eq_comm
  · have hlt := k.toNat_lt_size
    simp only [reduceCtorEq, false_iff]
    omega

theorem fit?_eq_none_iff {n : Nat} : fit? n = none ↔ UInt32.size ≤ n := by
  simp [fit?]

theorem exists_fit? {n : Nat} (h : n < UInt32.size) : ∃ k, fit? n = some k := ⟨.ofNat n, if_pos h⟩

/-- Of the results on the way to a tab stop none is greater than the last, so the
checked step fails only if that one does not fit. -/
theorem past?_eq (tabWidth : UInt32) {column : UInt32} (hpos : 0 < column.toNat) (c : Char) :
    past? tabWidth column c = fit? (past tabWidth.toNat column.toNat c) := by
  have hone : (1 : UInt32).toNat = 1 := rfl
  by_cases htab : c = '\t' ∧ 0 < tabWidth
  · have htab' : c = '\t' ∧ 0 < tabWidth.toNat := htab.imp_right UInt32.lt_iff_toNat_lt.1
    have hle : (1 : UInt32) ≤ column := UInt32.le_iff_toNat_le.2 hpos
    have hpassed : ((column - 1) / tabWidth).toNat = (column.toNat - 1) / tabWidth.toNat := by
      rw [UInt32.toNat_div, UInt32.toNat_sub_of_le _ _ hle, hone]
    have hfits : (column.toNat - 1) / tabWidth.toNat + 1 < UInt32.size := by
      have hdiv := Nat.div_le_self (column.toNat - 1) tabWidth.toNat
      have hlt := column.toNat_lt_size
      omega
    obtain ⟨stops, hstops⟩ := exists_fit? hfits
    have hadd : add? ((column - 1) / tabWidth) 1 = some stops := by
      rw [add?, hpassed, hone, hstops]
    rw [past?, if_pos htab, past, if_pos htab', sub?, if_pos hle, ← fit?_eq_some_iff.1 hstops]
    simp only [Option.bind_eq_bind, Option.bind_some, hadd]
    rw [mul?]
    cases hmul : fit? (stops.toNat * tabWidth.toNat) with
    | none =>
      have hlarge := fit?_eq_none_iff.1 hmul
      exact (fit?_eq_none_iff.2 (Nat.le_succ_of_le hlarge)).symm
    | some reached =>
      rw [Option.bind_some, add?, hone, fit?_eq_some_iff.1 hmul]
  · have htab' : ¬ (c = '\t' ∧ 0 < tabWidth.toNat) :=
      fun h => htab (h.imp_right UInt32.lt_iff_toNat_lt.2)
    rw [past?, if_neg htab, past, if_neg htab', add?, hone]

/-- So the count fails only if the column that it is for does not fit. -/
theorem at?_eq (tabWidth : UInt32) (hline : '\n' ∉ line) :
    at? tabWidth line = fit? (reach tabWidth.toNat line) := by
  induction line using List.reverseRecOn with
  | nil => rfl
  | append_singleton line c ih =>
    rw [List.mem_append, not_or, List.mem_singleton] at hline
    have hpos := reach_pos tabWidth.toNat hline.1
    have hat : at? tabWidth (line ++ [c]) = (at? tabWidth line).bind (past? tabWidth · c) := by
      simp [at?, List.foldlM_append]
    rw [hat, ih hline.1, reach_concat (Ne.symm hline.2)]
    cases hfit : fit? (reach tabWidth.toNat line) with
    | none =>
      have hlarge := fit?_eq_none_iff.1 hfit
      exact (fit?_eq_none_iff.2 (Nat.le_trans hlarge (Nat.le_of_lt (lt_past _ c hpos)))).symm
    | some column =>
      have hcolumn := fit?_eq_some_iff.1 hfit
      rw [Option.bind_some, past?_eq tabWidth (hcolumn ▸ hpos), hcolumn]

/-- Where the count gets to, it has got to every place before, with a smaller
column. -/
theorem exists_at?_of_concat {tabWidth : UInt32} (hline : '\n' ∉ line) (hc : c ≠ '\n')
    {after : UInt32} (hafter : at? tabWidth (line ++ [c]) = some after) :
    ∃ column, at? tabWidth line = some column ∧ column < after ∧
      (c = '\t' → 0 < tabWidth →
        ∃ stops, 0 < stops ∧ after.toNat - 1 = stops * tabWidth.toNat) := by
  have hconcat : '\n' ∉ line ++ [c] := by simp [hline, Ne.symm hc]
  rw [at?_eq tabWidth hconcat, fit?_eq_some_iff, reach_concat hc] at hafter
  have hlt := lt_past tabWidth.toNat c (reach_pos tabWidth.toNat hline)
  have hfits : reach tabWidth.toNat line < UInt32.size :=
    Nat.lt_trans hlt (hafter ▸ after.toNat_lt_size)
  obtain ⟨column, hfit⟩ := exists_fit? hfits
  have hcolumn := fit?_eq_some_iff.1 hfit
  refine ⟨column, by rw [at?_eq tabWidth hline, hfit], ?_, fun htab hwidth => ?_⟩
  · rw [UInt32.lt_iff_toNat_lt, hcolumn, hafter]
    exact hlt
  · subst htab
    obtain ⟨stops, hpos, hstops⟩ := past_tab (UInt32.lt_iff_toNat_lt.1 hwidth)
      (reach tabWidth.toNat line)
    exact ⟨stops, hpos, by rw [hafter, hstops, Nat.add_sub_cancel]⟩

end Column

namespace Lexeme

/-! ## Scans -/

/-- A mark behind `before` has the column that its line reaches. -/
def Mark.Reaches (tabWidth : Nat) (before : List Char) (m : Mark) : Prop :=
  m.column = Column.reach tabWidth (Text.lastLine before)

namespace Mark.Reaches

variable {tabWidth : Nat} {before : List Char} {m : Mark}

theorem past (h : m.Reaches tabWidth before) (c : Char) :
    (m.past tabWidth c).Reaches tabWidth (before ++ [c]) := by
  unfold Reaches at h ⊢
  rw [Text.lastLine_concat]
  by_cases hc : c = '\n'
  · rw [if_pos hc, Mark.past, if_pos hc]
    rfl
  · rw [if_neg hc, Column.column_mark_past hc, Column.reach_concat hc, h]

theorem pastAll (h : m.Reaches tabWidth before) (cs : List Char) :
    (m.pastAll tabWidth cs).Reaches tabWidth (before ++ cs) := by
  induction cs generalizing m before with
  | nil =>
    rw [List.append_nil]
    exact h
  | cons c cs ih =>
    have hrest := ih (h.past c)
    rwa [List.append_assoc] at hrest

/-- Only the column counts, not whether the line is fresh. -/
theorem next (h : m.Reaches tabWidth before) (chunk : Chunk) :
    (chunk.next tabWidth m).Reaches tabWidth (before ++ chunk.text) := by
  unfold Chunk.next
  split
  · rename_i t _
    have hused : ({ m with fresh := m.fresh && t.isComment } : Mark).Reaches tabWidth before := h
    exact hused.pastAll chunk.text
  · exact h.pastAll chunk.text

end Mark.Reaches

/-- A lexeme whose column is the one that its line reaches. -/
def Reaches (tabWidth : Nat) (source : String) (tok : Lexeme) : Prop :=
  ∃ before, Text.before? source.toList tok.span.start = some before ∧
    tok.column = Column.reach tabWidth (Text.lastLine before)

theorem Mark.Reaches.lexeme {tabWidth : Nat} {source : String} {before after : List Char} {m : Mark}
    (h : m.Reaches tabWidth before) (hoffset : m.offset = Text.byteLength before)
    (hsource : source.toList = before ++ after) {tok : Lexeme} (hstart : tok.span.start = m.offset)
    (hcolumn : tok.column = m.column) : tok.Reaches tabWidth source := by
  refine ⟨before, ?_, hcolumn.trans h⟩
  rw [hstart, hoffset, hsource, Text.before?, Text.splitAt?_byteLength]
  rfl

theorem reaches_scanFrom {source : String} (tabWidth : Nat) (m : Mark) (cs : List Char) :
    ∀ before, source.toList = before ++ cs → m.offset = Text.byteLength before →
      m.Reaches tabWidth before →
      ∀ tok ∈ (scanFrom tabWidth m cs).lexemes, tok.Reaches tabWidth source := by
  fun_induction scanFrom tabWidth m cs with
  | case1 m =>
    intro before hsource hoffset hm tok htok
    rw [List.mem_singleton.1 htok]
    exact hm.lexeme hoffset hsource rfl rfl
  | case2 m c cs _ ih =>
    intro before hsource hoffset hm
    have hpast : source.toList = (before ++ [c]) ++ cs := by rw [hsource, List.append_assoc]; rfl
    refine ih _ hpast ?_ (hm.past c)
    rw [Mark.offset_past, hoffset]
    simp
  | case3 m c cs _ chunk next ih =>
    intro before hsource hoffset hm
    have htext : source.toList = before ++ (chunk.text ++ chunk.rest) := by
      rw [hsource, Chunk.text_append_rest]
    have hnext : next.offset = Text.byteLength (before ++ chunk.text) := by
      rw [Chunk.offset_next, hoffset, Text.byteLength_append]
    have hrest := ih _ (by rw [htext, List.append_assoc]) hnext (hm.next chunk)
    rw [TokenStream.lexemes_append]
    refine List.forall_mem_append.2 ⟨fun tok htok => ?_, hrest⟩
    unfold Chunk.emit at htok
    split at htok
    · rw [List.mem_singleton.1 htok]
      exact hm.lexeme hoffset htext rfl rfl
    · simp at htok

theorem reaches_scan (tabWidth : Nat) (source : String) :
    ∀ tok ∈ (scan tabWidth source).lexemes, tok.Reaches tabWidth source :=
  reaches_scanFrom tabWidth .start source.toList [] rfl rfl rfl

/-- Counting a column again in 32 bits gives the same lexeme, if it fits. -/
theorem recount?_eq {tabWidth : UInt32} {source : String} {tok : Lexeme}
    (h : tok.Reaches tabWidth.toNat source) :
    tok.recount? tabWidth source = if tok.column < UInt32.size then some tok else none := by
  obtain ⟨before, hbefore, hcolumn⟩ := h
  rw [recount?, hbefore, Option.bind_eq_bind, Option.bind_some,
    Column.at?_eq tabWidth (Text.newline_notMem_lastLine before), ← hcolumn]
  split
  · rename_i hfits
    obtain ⟨column, hfit⟩ := Column.exists_fit? hfits
    rw [hfit, Option.bind_eq_bind, Option.bind_some, Column.fit?_eq_some_iff.1 hfit]
    rfl
  · rename_i hlarge
    rw [Column.fit?_eq_none_iff.2 (Nat.le_of_not_lt hlarge)]
    rfl

theorem mapM_recount?_eq {tabWidth : UInt32} {source : String} {toks : List Lexeme}
    (h : ∀ tok ∈ toks, tok.Reaches tabWidth.toNat source) :
    toks.mapM (recount? tabWidth source) =
      if ∀ tok ∈ toks, tok.column < UInt32.size then some toks else none := by
  induction toks with
  | nil => rfl
  | cons tok toks ih =>
    obtain ⟨htok, htoks⟩ := List.forall_mem_cons.1 h
    rw [List.mapM_cons, recount?_eq htok, ih htoks]
    by_cases hall : ∀ t ∈ tok :: toks, t.column < UInt32.size
    · obtain ⟨hfirst, hrest⟩ := List.forall_mem_cons.1 hall
      rw [if_pos hall, if_pos hfirst, if_pos hrest]
      rfl
    · rw [if_neg hall]
      by_cases hfirst : tok.column < UInt32.size
      · have hrest : ¬ ∀ t ∈ toks, t.column < UInt32.size := fun h =>
          hall (List.forall_mem_cons.2 ⟨hfirst, h⟩)
        rw [if_pos hfirst, if_neg hrest]
        rfl
      · rw [if_neg hfirst]
        rfl

/-- A text has tokens if all columns fit, and then they are those of the scan. -/
theorem scan?_eq (tabWidth : UInt32) (source : String) :
    scan? tabWidth source =
      if ∀ tok ∈ (scan tabWidth.toNat source).lexemes, tok.column < UInt32.size then
        some (scan tabWidth.toNat source)
      else none := by
  rw [scan?, mapM_recount?_eq (reaches_scan tabWidth.toNat source)]
  split <;> rfl

/-- The line of a lexeme is a part of the text, so it reaches no further than the
length and the tabs of the text together. -/
theorem Reaches.column_le {tabWidth : Nat} {source : String} {tok : Lexeme}
    (h : tok.Reaches tabWidth source) : tok.column ≤
      source.toList.length + source.toList.count '\t' * (tabWidth - 1) + 1 := by
  obtain ⟨before, hbefore, hcolumn⟩ := h
  obtain ⟨⟨prior, after⟩, hcut, hprior⟩ := Option.map_eq_some_iff.1 hbefore
  obtain rfl : prior = before := hprior
  have hsource := (Text.eq_append_of_splitAt? hcut).1
  have hline : (Text.lastLine prior).Sublist source.toList :=
    (Text.sublist_lastLine prior).trans (hsource ▸ List.sublist_append_left prior after)
  have hreach := Column.reach_le tabWidth (Text.newline_notMem_lastLine prior)
  have hlength := hline.length_le
  have htabs := Nat.mul_le_mul_right (tabWidth - 1) (hline.count_le '\t')
  rw [hcolumn]
  omega

/-- All columns of a text fit if its length and its tabs allow it. -/
theorem column_lt_of_short {tabWidth : Nat} {source : String}
    (h : source.toList.length + source.toList.count '\t' * (tabWidth - 1) < UInt32.size - 1) :
    ∀ tok ∈ (scan tabWidth source).lexemes, tok.column < UInt32.size := by
  intro tok htok
  have hle := (reaches_scan tabWidth source tok htok).column_le
  omega

/-- A tab width of 32 bits does not keep columns in 32 bits. Along a line without
newlines the checked count fails just if the column there does not fit, which it
does if length and tabs of the line allow it: where tabs are at most one column
wide, or where there are none, the length alone. Where the count does not fail it
grows with every character, and a tab leads to the first column behind a tab
stop. So a scan has the columns that its lines reach, and a text has tokens just
if all of these fit. -/
theorem scan?_columns (tabWidth : UInt32) (source : String) :
    (∀ line, '\n' ∉ line →
      (Column.at? tabWidth line = none ↔ UInt32.size ≤ Column.reach tabWidth.toNat line) ∧
      (line.length + line.count '\t' * (tabWidth.toNat - 1) < UInt32.size - 1 →
        Column.at? tabWidth line ≠ none) ∧
      ∀ c after, c ≠ '\n' → Column.at? tabWidth (line ++ [c]) = some after →
        ∃ column, Column.at? tabWidth line = some column ∧ column < after ∧
          (c = '\t' → 0 < tabWidth →
            ∃ stops, 0 < stops ∧ after.toNat - 1 = stops * tabWidth.toNat)) ∧
    (∀ tok ∈ (scan tabWidth.toNat source).lexemes, tok.Reaches tabWidth.toNat source) ∧
    scan? tabWidth source =
      (if ∀ tok ∈ (scan tabWidth.toNat source).lexemes, tok.column < UInt32.size then
        some (scan tabWidth.toNat source)
      else none) ∧
    (source.toList.length + source.toList.count '\t' * (tabWidth.toNat - 1) < UInt32.size - 1 →
      scan? tabWidth source = some (scan tabWidth.toNat source)) := by
  have hreaches := reaches_scan tabWidth.toNat source
  refine ⟨fun line hline => ⟨?_, fun hshort => ?_, fun c after hc hafter => ?_⟩, hreaches,
    scan?_eq tabWidth source, fun hshort => ?_⟩
  · rw [Column.at?_eq tabWidth hline, Column.fit?_eq_none_iff]
  · have hle := Column.reach_le tabWidth.toNat hline
    rw [Column.at?_eq tabWidth hline, Ne, Column.fit?_eq_none_iff]
    omega
  · exact Column.exists_at?_of_concat hline hc hafter
  · rw [scan?_eq, if_pos (column_lt_of_short hshort)]

/-- A tab of half the greatest width is counted, and what stands behind it too. A
tab of the greatest width is not, so a text of two characters has no tokens. -/
theorem scan?_columns_wide :
    let half : UInt32 := 2147483648
    let greatest : UInt32 := 4294967295
    '\n' ∉ ['\t'] ∧ ['\t'].length + ['\t'].count '\t' * (half.toNat - 1) < UInt32.size - 1 ∧
      Column.at? half ['\t'] ≠ none ∧
      (∃ column, Column.at? half [] = some column ∧ column < 2147483649) ∧
      scan? half "\tx" = some (scan half.toNat "\tx") ∧ scan? greatest "\tx" = none := by
  intro half greatest
  have hline : '\n' ∉ ['\t'] := by decide
  have hshort : ['\t'].length + ['\t'].count '\t' * (half.toNat - 1) < UInt32.size - 1 := by decide
  have hat : Column.at? half ([] ++ ['\t']) = some 2147483649 := by decide
  obtain ⟨hlines, -, -, hscan⟩ := scan?_columns half "\tx"
  obtain ⟨-, -, hscan', -⟩ := scan?_columns greatest "\tx"
  obtain ⟨column, hcolumn, hlt, -⟩ := (hlines [] List.not_mem_nil).2.2 '\t' _ (by decide) hat
  refine ⟨hline, hshort, (hlines _ hline).2.1 hshort, ⟨column, hcolumn, hlt⟩,
    hscan (by decide), hscan'.trans (if_neg ?_)⟩
  decide +kernel

end Lexeme

end Offside
