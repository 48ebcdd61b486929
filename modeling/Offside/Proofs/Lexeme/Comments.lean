-- SUMMARY: Comments mean nothing: blanks in their place leave the tokens, the problems and the layout of a text as they are.
import Offside.Proofs.Layout.Relocate
import Offside.Proofs.Lexeme.Ordered
import Offside.Proofs.Lexeme.Spelled

/-! # Texts without their comments

`withoutComments` puts a blank in the place of every character of a comment, but
for newlines and tabs. Such a text is scanned as before, comments aside:
`alike_scanFrom`. The scan stands at the same line and column behind a comment
and behind its blanks, and a chunk in front of a comment ends there in both. -/

namespace Offside

/-! ## Streams up to spans -/

/-- A lexeme wherever its bytes are. -/
def Lexeme.unspanned (tok : Lexeme) : Lexeme := { tok with span := default }

namespace TokenStream

/-- The same tokens at the same lines and columns, and the same problems. -/
structure Alike (a b : TokenStream) : Prop where
  lexemes : a.lexemes.map Lexeme.unspanned = b.lexemes.map Lexeme.unspanned
  problems : a.diagnostics.map (·.problem) = b.diagnostics.map (·.problem)

/-- The stream without its comments. -/
def meaningful (s : TokenStream) : TokenStream :=
  ⟨s.lexemes.filter (!·.token.isComment), s.diagnostics⟩

theorem meaningful_append (a b : TokenStream) :
    (a ++ b).meaningful = a.meaningful ++ b.meaningful := by
  simp only [meaningful, lexemes_append, List.filter_append]
  rfl

theorem Alike.append {a a' b b' : TokenStream} (ha : a.Alike a') (hb : b.Alike b') :
    (a ++ b).Alike (a' ++ b') := by
  constructor
  · simp [ha.lexemes, hb.lexemes]
  · simp [ha.problems, hb.problems]

/-- A stream that is like one without comments has none. -/
theorem Alike.meaningful {a b : TokenStream} (h : a.Alike b.meaningful) :
    a.meaningful.Alike b.meaningful := by
  have hfilter (toks : List Lexeme) : (toks.filter (!·.token.isComment)).map Lexeme.unspanned =
      (toks.map Lexeme.unspanned).filter (!·.token.isComment) := by
    rw [List.filter_map]
    rfl
  refine ⟨?_, h.problems⟩
  simp only [TokenStream.meaningful]
  rw [hfilter, h.lexemes, ← hfilter]
  simp [TokenStream.meaningful]

end TokenStream

namespace Lexeme

/-! ## Blanks for comments -/

/-- What stands in the place of a character of a comment. -/
def blanked (c : Char) : Char := if c = '\n' ∨ c = '\t' then c else ' '

/-- The text `cs`, which starts at `offset`, with the characters in `spans`
blanked. -/
def blankedIn (spans : List Span) (offset : Nat) : List Char → List Char
  | [] => []
  | c :: cs =>
    (if ∃ span ∈ spans, span.start ≤ offset ∧ offset < span.stop then blanked c else c) ::
      blankedIn spans (offset + c.utf8Size) cs

/-- The places of the comments among lexemes. -/
def comments (toks : List Lexeme) : List Span := (toks.filter (·.token.isComment)).map (·.span)

/-- A text with blanks in the place of its comments. -/
def withoutComments (tabWidth : Nat) (source : String) : String :=
  String.ofList (blankedIn (comments (scan tabWidth source).lexemes) 0 source.toList)

theorem isBlank_blanked (c : Char) : Text.isBlank (blanked c) = true := by
  rw [blanked]
  split
  · rename_i h
    rcases h with rfl | rfl <;> rfl
  · rfl

theorem comments_append (xs ys : List Lexeme) :
    comments (xs ++ ys) = comments xs ++ comments ys := by
  simp [comments]

section

variable {spans : List Span} {offset : Nat} {cs : List Char}

theorem blankedIn_append (xs ys : List Char) : blankedIn spans offset (xs ++ ys) =
    blankedIn spans offset xs ++ blankedIn spans (offset + Text.byteLength xs) ys := by
  induction xs generalizing offset with
  | nil => rfl
  | cons c xs ih => simp [blankedIn, ih, Nat.add_assoc]

/-- Before the first of the spans the text is as it was. -/
theorem blankedIn_eq_self (h : ∀ span ∈ spans, offset + Text.byteLength cs ≤ span.start) :
    blankedIn spans offset cs = cs := by
  induction cs generalizing offset with
  | nil => rfl
  | cons c cs ih =>
    have hpos := c.utf8Size_pos
    have hnot : ¬ ∃ span ∈ spans, span.start ≤ offset ∧ offset < span.stop := by
      rintro ⟨span, hspan, hle, -⟩
      have := h span hspan
      rw [Text.byteLength_cons] at this
      omega
    have hrest : blankedIn spans (offset + c.utf8Size) cs = cs :=
      ih fun span hspan => by simpa [Nat.add_assoc] using h span hspan
    rw [blankedIn, if_neg hnot, hrest]

/-- All of a span is blanked. -/
theorem blankedIn_span {span : Span} (hspan : span ∈ spans) (hstart : span.start ≤ offset)
    (hstop : offset + Text.byteLength cs ≤ span.stop) :
    blankedIn spans offset cs = cs.map blanked := by
  induction cs generalizing offset with
  | nil => rfl
  | cons c cs ih =>
    have hpos := c.utf8Size_pos
    rw [Text.byteLength_cons] at hstop
    rw [blankedIn, if_pos ⟨span, hspan, hstart, by omega⟩, ih (by omega) (by omega), List.map_cons]

/-- A span that ends before the text does not matter. -/
theorem blankedIn_cons_of_le {span : Span} (h : span.stop ≤ offset) :
    blankedIn (span :: spans) offset cs = blankedIn spans offset cs := by
  induction cs generalizing offset with
  | nil => rfl
  | cons c cs ih =>
    have hnot : ¬ (span.start ≤ offset ∧ offset < span.stop) := by omega
    simp [blankedIn, hnot, ih (Nat.le_add_right_of_le h)]

end

/-! ## Texts from a mark on -/

/-- The text from a mark on with blanks in the place of its comments. -/
def blankedFrom (tabWidth : Nat) (m : Mark) (cs : List Char) : List Char :=
  blankedIn (comments (scanFrom tabWidth m cs).lexemes) m.offset cs

theorem le_start_of_mem_comments {tabWidth : Nat} {m : Mark} {cs : List Char} {span : Span}
    (h : span ∈ comments (scanFrom tabWidth m cs).lexemes) : m.offset ≤ span.start := by
  obtain ⟨tok, htok, rfl⟩ := List.mem_map.1 h
  obtain ⟨htok, hcomment⟩ := List.mem_filter.1 htok
  obtain ⟨pre, eof, heq, heof, hpre, -⟩ := isScanned_scanFrom tabWidth m cs
  rw [heq] at htok
  rcases List.mem_append.1 htok with htok | htok
  · exact (hpre tok htok).2.2
  · obtain rfl := List.mem_singleton.1 htok
    simp [heof.1, Token.isComment] at hcomment

/-- Whether a chunk is a comment. -/
def Chunk.isComment (chunk : Chunk) : Bool :=
  match chunk.meaning with
  | .ok token => token.isComment
  | .error _ => false

theorem Chunk.comments_emit (chunk : Chunk) (m : Mark) (stop : Nat) :
    comments (chunk.emit m stop).lexemes = if chunk.isComment then [⟨m.offset, stop⟩] else [] := by
  cases hmeaning : chunk.meaning with
  | ok token => cases hcomment : token.isComment <;> simp [emit, isComment, hmeaning, comments, hcomment]
  | error problem => simp [emit, isComment, hmeaning, comments]

/-- A chunk begins with the character at which it is read. -/
theorem Chunk.exists_text (c : Char) (cs : List Char) : ∃ text, (read c cs).text = c :: text := by
  obtain ⟨d, text, htext⟩ := List.exists_cons_of_ne_nil (text_ne_nil c cs)
  have hcs := text_append_rest c cs
  rw [htext] at hcs
  obtain rfl : d = c := (List.cons.inj hcs).1
  exact ⟨text, htext⟩

/-- A word is no comment. -/
theorem isComment_ofWord {word : List Char} {next : Option Char} {t : Token}
    (h : Token.ofWord word next = some t) : t.isComment = false := by
  have hreserved : ∀ entry ∈ Token.reserved, entry.2.isComment = false := by decide
  obtain hmem | ⟨-, -, rfl⟩ | ⟨-, rfl, -⟩ := ofWord_cases h
  · exact hreserved _ hmem
  · rfl
  · rfl

/-- A comment begins with a brace or a dash. -/
theorem Chunk.eq_of_isComment {c : Char} {cs : List Char} (h : (read c cs).isComment = true) :
    c = '\x7b' ∨ c = '-' := by
  unfold read at h
  split at h
  case h_11 =>
    simp only [isComment, word] at h
    split at h
    · rename_i hmeaning
      split at hmeaning
      · rename_i hword
        obtain rfl := Except.ok.inj hmeaning
        rw [isComment_ofWord hword] at h
        cases h
      · cases hmeaning
    · cases h
  all_goals first
    | exact .inl rfl
    | exact .inr rfl
    | cases h

/-! ## What stands behind a chunk -/

/-- A text begins as another one, or with a blank for a comment of it. -/
def BeginsAlike (rest rest' : List Char) : Prop :=
  rest'.head? = rest.head? ∨
    (rest.head? = some '\x7b' ∨ rest.head? = some '-') ∧ rest'.head? = some ' '

namespace BeginsAlike

variable {rest rest' : List Char}

theorem head?_ne {c : Char} (h : BeginsAlike rest rest') (hc : c ≠ ' ') (hne : rest.head? ≠ some c) :
    rest'.head? ≠ some c := by
  rcases h with heq | ⟨-, heq⟩
  · rwa [heq]
  · rw [heq]
    exact fun h => hc (Option.some.inj h).symm

theorem eq_nil (h : BeginsAlike [] rest') : rest' = [] := by
  simpa [BeginsAlike] using h

theorem any_isWideBlank (h : BeginsAlike rest rest') :
    rest'.head?.any Text.isWideBlank = rest.head?.any Text.isWideBlank := by
  rcases h with heq | ⟨hbrace | hdash, heq⟩
  · rw [heq]
  · rw [heq, hbrace]
    rfl
  · rw [heq, hdash]
    rfl

/-- What stands behind a word does not go on with it. -/
theorem isWordChar_eq_false {cs : List Char} (h : BeginsAlike (cs.dropWhile Token.isWordChar) rest) :
    ∀ c ∈ rest.head?, Token.isWordChar c = false := by
  intro c hc
  rcases h with heq | ⟨-, heq⟩
  · have hnot := List.head?_dropWhile_not Token.isWordChar cs
    rw [← heq, Option.mem_def.1 hc] at hnot
    simpa using hnot
  · rw [heq] at hc
    exact Option.some.inj hc ▸ rfl

/-- What follows the first character of a word is as before, or not of the word. -/
theorem head?_eq_of_isWordChar {cs : List Char}
    (h : BeginsAlike (cs.dropWhile Token.isWordChar) rest) {c : Char} (hc : Token.isWordChar c = true)
    (hhead : (cs.takeWhile Token.isWordChar ++ rest).head? = some c) : cs.head? = some c := by
  have hrest : rest.head? ≠ some c := by
    intro hrest
    rw [h.isWordChar_eq_false c hrest] at hc
    cases hc
  cases cs with
  | nil => exact absurd hhead hrest
  | cons d cs =>
    cases hd : Token.isWordChar d with
    | true => simpa [hd] using hhead
    | false => exact absurd (by simpa [hd] using hhead) hrest

end BeginsAlike

namespace Chunk

variable {cs rest : List Char}

/-- A word ends where it did with another text behind it. -/
theorem word_append {c : Char} (h : BeginsAlike (cs.dropWhile Token.isWordChar) rest) :
    word c (cs.takeWhile Token.isWordChar ++ rest) = { word c cs with rest := rest } := by
  have hstop := takeWhile_isWordChar h.isWordChar_eq_false
  have hword : ∀ d ∈ cs.takeWhile Token.isWordChar, Token.isWordChar d = true :=
    fun d hd => List.mem_takeWhile_imp hd
  have hmeaning (text : List Char) : Token.ofWord text rest.head? =
      Token.ofWord text (cs.dropWhile Token.isWordChar).head? := by
    simp only [Token.ofWord, h.any_isWideBlank]
  simp only [word, List.takeWhile_append_of_pos hword, List.dropWhile_append_of_pos hword, hstop,
    List.append_nil, hmeaning]

/-- A chunk other than a comment is the same with another text behind it, if that
begins alike. -/
theorem read_append {c : Char} {text : List Char} (hc : Text.isBlank c = false)
    (hcomment : (read c cs).isComment = false) (htext : (read c cs).text = c :: text)
    (h : BeginsAlike (read c cs).rest rest) :
    read c (text ++ rest) = { read c cs with rest := rest } := by
  have hsingle {t u : Token} {d : Char} (htext : (single t d cs).text = d :: text) :
      single u d (text ++ rest) = { single u d cs with rest := rest } := by
    obtain rfl : [] = text := by simpa [single] using htext
    rfl
  have hfirst {d : Char} (hne : ∀ ds, cs = d :: ds → False) : cs.head? ≠ some d := by
    cases cs <;> simp_all
  revert hc hcomment htext h
  fun_cases read c cs with
  | case1 rest' =>
    rintro - - htext -
    obtain rfl : [')'] = text := by simpa using htext
    rfl
  | case2 cs hne =>
    rintro - - htext h
    obtain rfl : [] = text := by simpa [single] using htext
    exact read_lparen (BeginsAlike.head?_ne h (by decide) (hfirst hne))
  | case4 cs =>
    rw [blockComment]
    split
    · rintro - ⟨⟩
    · rename_i hnone
      rintro - - htext h
      obtain rfl := h.eq_nil
      obtain rfl : '-' :: cs = text := by simpa using htext
      simp [read, blockComment, hnone]
  | case5 cs hne =>
    rintro - - htext h
    obtain rfl : [] = text := by simpa [single] using htext
    exact read_lbrace (BeginsAlike.head?_ne h (by decide) (hfirst hne))
  | case10 => rintro - ⟨⟩
  | case11 c cs _ _ _ _ _ _ _ _ _ hdash =>
    rintro hc - htext h
    obtain rfl : cs.takeWhile Token.isWordChar = text := by simpa [word] using htext
    rw [read_word ?_ ?_, word_append h]
    · simp_all [Token.isWordChar, Token.isDelimiter]
    · rintro ⟨ds, hds⟩
      obtain ⟨rfl, htail⟩ := List.cons.inj hds
      have hhead : cs.head? = some '-' :=
        BeginsAlike.head?_eq_of_isWordChar h rfl (congrArg List.head? htail).symm
      exact hfirst (fun ds => hdash ds rfl) hhead
  | case3 | case6 | case7 | case8 | case9 => exact fun _ _ htext _ => hsingle htext

end Chunk

section

variable {tabWidth : Nat} {m : Mark} {c : Char} {cs : List Char}

theorem blankedFrom_blank (hc : Text.isBlank c = true) :
    blankedFrom tabWidth m (c :: cs) = c :: blankedFrom tabWidth (m.past tabWidth c) cs := by
  have hself : blankedIn (comments (scanFrom tabWidth (m.past tabWidth c) cs).lexemes) m.offset [c] =
      [c] := by
    refine blankedIn_eq_self fun span hspan => ?_
    simpa [Mark.offset_past] using le_start_of_mem_comments hspan
  rw [blankedFrom, scanFrom_blank hc, ← List.singleton_append, blankedIn_append, hself, blankedFrom,
    Mark.offset_past]
  simp

theorem scanFrom_chunk (hc : Text.isBlank c = false) : scanFrom tabWidth m (c :: cs) =
    (Chunk.read c cs).emit m ((Chunk.read c cs).next tabWidth m).offset ++
      scanFrom tabWidth ((Chunk.read c cs).next tabWidth m) (Chunk.read c cs).rest := by
  rw [scanFrom, if_neg (by simp [hc])]

/-- A comment is blanked, and any other chunk stays. -/
theorem blankedFrom_chunk (hc : Text.isBlank c = false) :
    blankedFrom tabWidth m (c :: cs) =
      (if (Chunk.read c cs).isComment then (Chunk.read c cs).text.map blanked
        else (Chunk.read c cs).text) ++
      blankedFrom tabWidth ((Chunk.read c cs).next tabWidth m) (Chunk.read c cs).rest := by
  rw [blankedFrom, scanFrom_chunk hc, blankedFrom]
  have hcs := Chunk.text_append_rest c cs
  generalize Chunk.read c cs = chunk at hcs
  have hoffset := Chunk.offset_next tabWidth m chunk
  have hlater : ∀ span ∈ comments (scanFrom tabWidth (chunk.next tabWidth m) chunk.rest).lexemes,
      m.offset + Text.byteLength chunk.text ≤ span.start := fun span hspan =>
    hoffset ▸ le_start_of_mem_comments hspan
  rw [← hcs, blankedIn_append, ← hoffset, TokenStream.lexemes_append, comments_append,
    Chunk.comments_emit]
  split
  · rw [List.singleton_append, blankedIn_cons_of_le (Nat.le_refl _),
      blankedIn_span (List.mem_cons_self ..) (Nat.le_refl _) (Nat.le_of_eq hoffset.symm)]
  · rw [List.nil_append, blankedIn_eq_self hlater]

theorem beginsAlike_blankedFrom (tabWidth : Nat) (m : Mark) (cs : List Char) :
    BeginsAlike cs (blankedFrom tabWidth m cs) := by
  cases cs with
  | nil => exact .inl rfl
  | cons c cs =>
    cases hc : Text.isBlank c with
    | true =>
      rw [blankedFrom_blank hc]
      exact .inl rfl
    | false =>
      rw [blankedFrom_chunk hc]
      obtain ⟨text, htext⟩ := Chunk.exists_text c cs
      rw [htext]
      split
      · rename_i hcomment
        refine .inr ⟨by simpa using Chunk.eq_of_isComment hcomment, ?_⟩
        rcases Chunk.eq_of_isComment hcomment with rfl | rfl <;> rfl
      · exact .inl rfl

end

/-! ## Marks -/

/-- Marks at the same line and column. -/
structure Mark.Alike (m m' : Mark) : Prop where
  line : m.line = m'.line
  column : m.column = m'.column
  fresh : m.fresh = m'.fresh

namespace Mark.Alike

variable {m m' : Mark} (tabWidth : Nat)

theorem past (h : m.Alike m') (c : Char) : (m.past tabWidth c).Alike (m'.past tabWidth c) := by
  unfold Mark.past
  split
  · exact ⟨congrArg (· + 1) h.line, rfl, rfl⟩
  · exact ⟨h.line, by simp only [h.column], h.fresh⟩

theorem past_blanked (h : m.Alike m') (c : Char) :
    (m.past tabWidth (blanked c)).Alike (m'.past tabWidth c) := by
  rw [blanked]
  split
  · exact h.past tabWidth c
  · rename_i hc
    obtain ⟨hnewline, htab⟩ := not_or.1 hc
    simp only [Mark.past, if_neg hnewline, htab, false_and, if_false]
    exact ⟨h.line, congrArg (· + 1) h.column, h.fresh⟩

theorem pastAll (h : m.Alike m') (cs : List Char) :
    (m.pastAll tabWidth cs).Alike (m'.pastAll tabWidth cs) := by
  induction cs generalizing m m' with
  | nil => exact h
  | cons c cs ih => exact ih (h.past tabWidth c)

theorem pastAll_blanked (h : m.Alike m') (cs : List Char) :
    (m.pastAll tabWidth (cs.map blanked)).Alike (m'.pastAll tabWidth cs) := by
  induction cs generalizing m m' with
  | nil => exact h
  | cons c cs ih => exact ih (h.past_blanked tabWidth c)

end Mark.Alike

theorem scanFrom_blanked (tabWidth : Nat) (m : Mark) (text cs : List Char) :
    scanFrom tabWidth m (text.map blanked ++ cs) =
      scanFrom tabWidth (m.pastAll tabWidth (text.map blanked)) cs := by
  induction text generalizing m with
  | nil => rfl
  | cons c text ih =>
    rw [List.map_cons, List.cons_append, scanFrom_blank (isBlank_blanked c), ih]
    rfl

/-! ## Scanning -/

namespace Chunk

variable {chunk : Chunk}

/-- A comment puts out nothing that means anything, and its line stays as fresh
as it was. -/
theorem of_isComment (h : chunk.isComment = true) (tabWidth : Nat) (m : Mark) (stop : Nat) :
    (chunk.emit m stop).meaningful = .empty ∧
      chunk.next tabWidth m = m.pastAll tabWidth chunk.text := by
  unfold isComment at h
  split at h
  · rename_i token hmeaning
    rw [next_of_ok hmeaning, h, Bool.and_true]
    simp [emit, hmeaning, TokenStream.meaningful, h, TokenStream.empty]
  · cases h

/-- Any other chunk puts out the same at the same line and column. -/
theorem alike_of_isComment_eq_false (h : chunk.isComment = false) (tabWidth : Nat) {m m' : Mark}
    (hm : m'.Alike m) (stop stop' : Nat) :
    (chunk.emit m' stop').Alike (chunk.emit m stop).meaningful ∧
      (chunk.next tabWidth m').Alike (chunk.next tabWidth m) := by
  unfold isComment at h
  split at h
  · rename_i token hmeaning
    have hused : ({ m' with fresh := m'.fresh && token.isComment } : Mark).Alike
        { m with fresh := m.fresh && token.isComment } :=
      ⟨hm.line, hm.column, congrArg (· && token.isComment) hm.fresh⟩
    rw [next_of_ok hmeaning, next_of_ok hmeaning]
    refine ⟨?_, hused.pastAll tabWidth chunk.text⟩
    simp only [emit, hmeaning, TokenStream.meaningful, h]
    refine ⟨?_, rfl⟩
    simp [unspanned, h, hm.line, hm.column, hm.fresh]
  · rename_i problem hmeaning
    have hpast := hm.pastAll tabWidth chunk.text
    rw [next_of_error hmeaning, next_of_error hmeaning]
    simp only [emit, hmeaning, TokenStream.meaningful]
    exact ⟨⟨rfl, rfl⟩, hpast.line, hpast.column, hm.fresh⟩

end Chunk

/-- A scan of the text with its comments blanked goes along with that of the text. -/
theorem alike_scanFrom (tabWidth : Nat) (m m' : Mark) (cs : List Char) (h : m'.Alike m) :
    (scanFrom tabWidth m' (blankedFrom tabWidth m cs)).Alike (scanFrom tabWidth m cs).meaningful := by
  fun_induction scanFrom tabWidth m cs generalizing m' with
  | case1 m =>
    rw [blankedFrom, blankedIn, scanFrom]
    refine ⟨?_, rfl⟩
    simp [TokenStream.meaningful, Token.isComment, unspanned, h.line, h.column]
  | case2 m c cs hc ih =>
    rw [blankedFrom_blank hc, scanFrom_blank hc]
    exact ih _ (h.past tabWidth c)
  | case3 m c cs hc chunk next ih =>
    have hc : Text.isBlank c = false := by simpa using hc
    rw [blankedFrom_chunk hc, TokenStream.meaningful_append]
    cases hcomment : (Chunk.read c cs).isComment with
    | true =>
      obtain ⟨hemit, hnext⟩ := Chunk.of_isComment hcomment tabWidth m next.offset
      rw [if_pos rfl, scanFrom_blanked, hemit, TokenStream.empty_append]
      refine ih _ ?_
      rw [show next = m.pastAll tabWidth chunk.text from hnext]
      exact h.pastAll_blanked tabWidth chunk.text
    | false =>
      obtain ⟨text, htext⟩ := Chunk.exists_text c cs
      rw [if_neg Bool.false_ne_true, htext, List.cons_append, scanFrom_chunk hc,
        Chunk.read_append hc hcomment htext (beginsAlike_blankedFrom _ _ _)]
      obtain ⟨hemit, hnext⟩ := Chunk.alike_of_isComment_eq_false hcomment tabWidth h next.offset _
      exact hemit.append (ih _ hnext)

end Lexeme

/-! ## Layout -/

/-- Lexemes wherever their bytes are. -/
def Layout.Relocation.unspanned : Layout.Relocation where
  span _ := default
  column := id
  span_point _ := rfl
  column_zero := rfl
  column_lt _ _ h := h

theorem Layout.Relocation.problem_unspanned (problem : Problem) :
    Relocation.unspanned.problem problem = problem := by
  cases problem <;> rfl

/-- Layout resolution drops comments. -/
theorem Layout.resolve_meaningful (s : TokenStream) :
    resolve s.meaningful.lexemes = resolve s.lexemes := by
  simp [resolve, TokenStream.meaningful]

/-- Layout resolution does not look at spans or comments. -/
theorem Layout.alike_resolve {a b : TokenStream} (h : a.meaningful.Alike b.meaningful)
    (ha : ∃ tok ∈ a.lexemes, tok.token = .eof) (hb : ∃ tok ∈ b.lexemes, tok.token = .eof) :
    (resolve a.lexemes).Alike (resolve b.lexemes) := by
  have hmeaningful (s : TokenStream) (hs : ∃ tok ∈ s.lexemes, tok.token = .eof) :
      Relocation.unspanned.stream (resolve s.lexemes) =
        resolve (s.meaningful.lexemes.map Lexeme.unspanned) := by
    rw [← resolve_meaningful]
    refine (resolve_relocate .unspanned ?_).symm
    obtain ⟨tok, htok, heof⟩ := hs
    exact ⟨tok, List.mem_filter.2 ⟨htok, by simp [heof, Token.isComment]⟩, heof⟩
  have heq : Relocation.unspanned.stream (resolve a.lexemes) =
      Relocation.unspanned.stream (resolve b.lexemes) := by
    rw [hmeaningful a ha, hmeaningful b hb, h.lexemes]
  refine ⟨congrArg TokenStream.lexemes heq, ?_⟩
  have hproblems := congrArg (fun s => s.diagnostics.map (·.problem)) heq
  simpa [Relocation.stream, Function.comp_def, Relocation.diagnostic, Relocation.problem_unspanned,
    Problem.at] using hproblems

namespace Lexeme

theorem exists_eof_scan (tabWidth : Nat) (source : String) :
    ∃ tok ∈ (scan tabWidth source).lexemes, tok.token = .eof := by
  obtain ⟨pre, eof, heq, ⟨heof, -⟩, -⟩ := isScanned_scanFrom tabWidth .start source.toList
  exact ⟨eof, by simp [scan, heq], heof⟩

theorem alike_scan (tabWidth : Nat) (source : String) :
    (scan tabWidth (withoutComments tabWidth source)).Alike (scan tabWidth source).meaningful := by
  rw [scan, withoutComments, String.toList_ofList]
  exact alike_scanFrom tabWidth .start .start source.toList ⟨rfl, rfl, rfl⟩

/-- The layout of a text does not show its comments either. -/
theorem alike_resolve (tabWidth : Nat) (source : String) :
    (Layout.resolve (scan tabWidth (withoutComments tabWidth source)).lexemes).Alike
      (Layout.resolve (scan tabWidth source).lexemes) :=
  Layout.alike_resolve (alike_scan tabWidth source).meaningful (exists_eof_scan _ _)
    (exists_eof_scan _ _)

/-- Blanks in the place of comments leave all other tokens as they are, wherever
their bytes are now, with the same problems and the same layout. -/
theorem alike_withoutComments (tabWidth : Nat) (source : String) :
    (scan tabWidth (withoutComments tabWidth source)).meaningful.Alike
        (scan tabWidth source).meaningful ∧
      (Layout.resolve (scan tabWidth (withoutComments tabWidth source)).lexemes).Alike
        (Layout.resolve (scan tabWidth source).lexemes) :=
  ⟨(alike_scan tabWidth source).meaningful, alike_resolve tabWidth source⟩

example : withoutComments 8 "let\x7b- \x7b- a -\x7d\tb\n-\x7din --c" =
    "let          \t \n  in    " := by
  decide +kernel

end Lexeme

end Offside
