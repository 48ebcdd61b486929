-- SUMMARY: A scan accounts for its text: where its tokens and problems stand, and what is written there.
import Mathlib.Data.List.Nodup
import Mathlib.Data.List.TakeWhile
import Offside.Proofs.Lexeme.Ordered

/-! # What a scan accounts for

The tokens and the problems of a text, taken together, are its pieces. They
stand one after another with nothing but blanks between them, and each of them
is what the text at its place denotes: `accounted_scan`. `Denotes` says what a
stretch of text stands for without reading it from left to right, and `Tiles`
is the shape of a text that is made of pieces and blanks. -/

namespace Offside

/-! ## Stretches of a text -/

theorem Text.byteLength_pos {cs : List Char} (h : cs ≠ []) : 0 < byteLength cs := by
  cases cs with
  | nil => exact absurd rfl h
  | cons c cs => exact Nat.add_pos_left c.utf8Size_pos _

/-- The text at the place of a stretch is that stretch. -/
theorem Span.slice_eq {source : String} {before text after : List Char}
    (h : source.toList = before ++ (text ++ after)) :
    Span.slice ⟨Text.byteLength before, Text.byteLength before + Text.byteLength text⟩ source =
      String.ofList text := by
  simp [slice, Text.slice?, Text.before?, h, Text.splitAt?_byteLength]

/-! ## What a text denotes -/

namespace Token

/-- The tokens that are written in one way, with delimiters. -/
def delimiters : List Token :=
  [.unit, .lparen, .rparen, .lbrace, .rbrace, .semicolon, .dot, .backslash]

end Token

namespace Lexeme

/-- What a stretch of text stands for: a token, or a problem with the text. A
reserved word may be a name as well, since what follows it can hide its meaning. -/
inductive Denotes : List Char → Except Problem Token → Prop
  | delimiter {t} (isDelimiter : t ∈ Token.delimiters) : Denotes t.text.toList (.ok t)
  | reserved {word t} (isReserved : (word, t) ∈ Token.reserved) : Denotes word.toList (.ok t)
  | name {word} (isWord : ∀ c ∈ word, Token.isWordChar c = true) (isPlain : ¬ ['-', '-'] <+: word)
      (isName : ∃ c ∈ word, c.isDigit = false) : Denotes word (.ok (.ident (String.ofList word)))
  | integer {digits} {value : UInt64} (areDigits : ∀ c ∈ digits, c.isDigit = true)
      (hasValue : Nat.ofDigitChars 10 digits 0 = value.toNat) : Denotes digits (.ok (.integer value))
  | tooLarge {digits} (areDigits : ∀ c ∈ digits, c.isDigit = true)
      (isLarge : UInt64.size ≤ Nat.ofDigitChars 10 digits 0) :
      Denotes digits (.error (.integerTooLarge (String.ofList digits)))
  | lineComment {body} (isLine : '\n' ∉ body) :
      Denotes ('-' :: '-' :: body) (.ok (.lineComment (String.ofList body)))
  | blockComment {body} :
      Denotes ('\x7b' :: '-' :: body ++ ['-', '\x7d']) (.ok (.blockComment (String.ofList body)))
  | unterminated {rest} : Denotes ('\x7b' :: '-' :: rest) (.error .unterminatedComment)

/-- A word that is a token. -/
theorem Denotes.ofWord {word : List Char} {next : Option Char} {t : Token}
    (h : Token.ofWord word next = some t) (hword : ∀ c ∈ word, Token.isWordChar c = true)
    (hdash : ¬ ['-', '-'] <+: word) : Denotes word (.ok t) := by
  obtain hreserved | ⟨hdigits, hlt, rfl⟩ | ⟨hdigits, rfl, -⟩ := ofWord_cases h
  · simpa using Denotes.reserved hreserved
  · refine .integer (List.all_eq_true.1 hdigits) ?_
    rw [UInt64.toNat_ofNat_of_lt' hlt]
    exact Nat.ofDigitChars_eq_foldl
  · exact .name hword hdash (by simpa using hdigits)

/-- A word that is no token is a number. -/
theorem Denotes.ofWord_eq_none {word : List Char} {next : Option Char}
    (h : Token.ofWord word next = none) :
    Denotes word (.error (.integerTooLarge (String.ofList word))) := by
  simp only [Token.ofWord] at h
  split at h
  · cases h
  · split at h
    · rename_i hdigits
      split at h
      · cases h
      · rename_i hlarge
        refine .tooLarge (List.all_eq_true.1 hdigits) ?_
        rw [Nat.ofDigitChars_eq_foldl]
        exact Nat.le_of_not_lt hlarge
    · cases h

theorem Chunk.denotes_blockComment (cs : List Char) :
    Denotes (blockComment cs).text (blockComment cs).meaning := by
  rw [blockComment]
  split
  · exact .blockComment
  · exact .unterminated

theorem Chunk.denotes_lineComment (cs : List Char) :
    Denotes (lineComment cs).text (lineComment cs).meaning := by
  refine .lineComment fun hmem => ?_
  simpa using List.mem_takeWhile_imp hmem

theorem Chunk.denotes_word {c : Char} {cs : List Char} (hc : Token.isWordChar c = true)
    (hdash : ¬ ['-', '-'] <+: c :: cs) : Denotes (word c cs).text (word c cs).meaning := by
  have hword : ∀ d ∈ (word c cs).text, Token.isWordChar d = true :=
    List.forall_mem_cons.2 ⟨hc, fun d => List.mem_takeWhile_imp⟩
  have hstart : (word c cs).text <+: c :: cs :=
    List.cons_prefix_cons.2 ⟨rfl, List.takeWhile_prefix Token.isWordChar⟩
  simp only [word]
  split
  · rename_i t ht
    exact .ofWord ht hword fun h => hdash (h.trans hstart)
  · rename_i hnone
    exact .ofWord_eq_none hnone

/-- A chunk means what its text denotes. -/
theorem Chunk.denotes_read {c : Char} (cs : List Char) (hc : Text.isBlank c = false) :
    Denotes (Chunk.read c cs).text (Chunk.read c cs).meaning := by
  have hdelimited : ∀ {t : Token} {text : List Char}, t ∈ Token.delimiters → text = t.text.toList →
      Denotes text (.ok t) := fun ht htext => htext ▸ .delimiter ht
  unfold Chunk.read
  split
  case h_4 => exact denotes_blockComment _
  case h_10 => exact denotes_lineComment _
  case h_11 =>
    rename_i hdashes
    have hdelimiter : Token.isDelimiter c = false := by simp_all [Token.isDelimiter]
    refine denotes_word ?_ ?_
    · rw [Token.isWordChar, hc, hdelimiter]
      rfl
    · rintro ⟨rest, hrest⟩
      obtain ⟨rfl, rfl⟩ := List.cons.inj hrest
      exact hdashes rest rfl rfl
  all_goals exact hdelimited (by decide) rfl

/-! ## Texts made of pieces -/

/-- A token or a problem at its place. -/
structure Piece where
  span : Span
  meaning : Except Problem Token

/-- A text from `offset` on that is made of pieces and, between them, blanks. -/
inductive Tiles : (offset : Nat) → List Char → List Piece → Prop
  | nil {offset} : Tiles offset [] []
  | blank {offset c cs pieces} (isBlank : Text.isBlank c = true)
      (rest : Tiles (offset + c.utf8Size) cs pieces) : Tiles offset (c :: cs) pieces
  | piece {offset text cs meaning pieces} (ne_nil : text ≠ []) (denotes : Denotes text meaning)
      (rest : Tiles (offset + Text.byteLength text) cs pieces) :
      Tiles offset (text ++ cs) (⟨⟨offset, offset + Text.byteLength text⟩, meaning⟩ :: pieces)

/-- A piece of the text `cs` that starts at `offset`. -/
structure Piece.Covers (offset : Nat) (cs : List Char) (p : Piece) : Prop where
  exists_text : ∃ before text after, cs = before ++ (text ++ after) ∧ text ≠ [] ∧
    Denotes text p.meaning ∧ p.span = ⟨offset + Text.byteLength before,
      offset + Text.byteLength before + Text.byteLength text⟩

/-- The same piece in a text with more in front. -/
theorem Piece.Covers.behind {offset : Nat} {cs : List Char} {p : Piece} (front : List Char)
    (h : p.Covers (offset + Text.byteLength front) cs) : p.Covers offset (front ++ cs) := by
  obtain ⟨before, text, after, rfl, hne, hdenotes, hspan⟩ := h
  refine ⟨front ++ before, text, after, (List.append_assoc ..).symm, hne, hdenotes, ?_⟩
  rw [hspan, Text.byteLength_append, Nat.add_assoc offset]

theorem Piece.Covers.start_lt_stop {offset : Nat} {cs : List Char} {p : Piece}
    (h : p.Covers offset cs) : p.span.start < p.span.stop := by
  obtain ⟨before, text, after, -, hne, -, hspan⟩ := h
  rw [hspan]
  exact Nat.lt_add_of_pos_right (Text.byteLength_pos hne)

/-- A piece of a whole text is at boundaries and means what the text between
them denotes. -/
theorem Piece.Covers.stands {source : String} {p : Piece} (h : p.Covers 0 source.toList) :
    (Text.IsBoundary source p.span.start ∧ Text.IsBoundary source p.span.stop) ∧
      Denotes (p.span.slice source).toList p.meaning := by
  obtain ⟨before, text, after, hsource, -, hdenotes, hspan⟩ := h
  rw [Nat.zero_add] at hspan
  have hassoc : source.toList = (before ++ text) ++ after := by rw [hsource, List.append_assoc]
  rw [hspan, Span.slice_eq hsource, String.toList_ofList, ← Text.byteLength_append]
  exact ⟨⟨Text.isBoundary_of_eq_append hsource, Text.isBoundary_of_eq_append hassoc⟩, hdenotes⟩

namespace Tiles

variable {offset : Nat} {cs : List Char} {pieces : List Piece}

theorem covers (h : Tiles offset cs pieces) : ∀ p ∈ pieces, p.Covers offset cs := by
  induction h with
  | nil => exact List.forall_mem_nil _
  | @blank offset c cs pieces _ _ ih => exact fun p hp => (ih p hp).behind [c]
  | @piece offset text cs meaning pieces ne_nil denotes _ ih =>
    refine List.forall_mem_cons.2 ⟨?_, fun p hp => (ih p hp).behind text⟩
    exact ⟨[], text, cs, rfl, ne_nil, denotes, rfl⟩

theorem le_start (h : Tiles offset cs pieces) : ∀ p ∈ pieces, offset ≤ p.span.start := by
  intro p hp
  obtain ⟨before, text, after, -, -, -, hspan⟩ := h.covers p hp
  rw [hspan]
  exact Nat.le_add_right _ _

/-- The pieces stand one after another. -/
theorem ordered (h : Tiles offset cs pieces) : Span.Ordered (pieces.map Piece.span) := by
  induction h with
  | nil => exact .nil
  | blank _ _ ih => exact ih
  | piece _ _ rest ih =>
    refine .cons ?_ ih
    intro span hspan
    obtain ⟨p, hp, rfl⟩ := List.mem_map.1 hspan
    exact rest.le_start p hp

/-- A character that is not blank belongs to a piece. -/
theorem covered (h : Tiles offset cs pieces) {before after : List Char} {c : Char}
    (hcs : cs = before ++ c :: after) : Text.isBlank c = true ∨
      ∃ p ∈ pieces, p.span.start ≤ offset + Text.byteLength before ∧
        offset + Text.byteLength before + c.utf8Size ≤ p.span.stop := by
  induction h generalizing before with
  | nil => simp at hcs
  | @blank offset d cs pieces isBlank _ ih =>
    cases before with
    | nil =>
      obtain ⟨rfl, -⟩ := List.cons.inj hcs
      exact .inl isBlank
    | cons b before =>
      obtain ⟨rfl, hrest⟩ := List.cons.inj hcs
      simpa [Nat.add_assoc] using ih hrest
  | @piece offset text cs meaning pieces ne_nil _ rest ih =>
    -- The character stands in the piece's own text, or behind it.
    rcases List.append_eq_append_iff.1 hcs with ⟨front, rfl, hbehind⟩ | ⟨back, rfl, hinside⟩
    · rcases ih hbehind with hblank | ⟨p, hp, hstart, hstop⟩
      · exact .inl hblank
      · refine .inr ⟨p, List.mem_cons_of_mem _ hp, ?_⟩
        rw [Text.byteLength_append]
        omega
    · cases back with
      | nil =>
        have hfirst : cs = [] ++ c :: after := hinside.symm
        rcases ih hfirst with hblank | ⟨p, hp, hstart, hstop⟩
        · exact .inl hblank
        · refine .inr ⟨p, List.mem_cons_of_mem _ hp, ?_⟩
          simpa using And.intro hstart hstop
      | cons d back =>
        obtain ⟨rfl, -⟩ := List.cons.inj hinside
        refine .inr ⟨_, List.mem_cons_self, Nat.le_add_right _ _, ?_⟩
        simp only [Text.byteLength_append, Text.byteLength_cons]
        omega

end Tiles

end Lexeme

/-! ## The pieces of a stream -/

/-- A token as a piece. -/
def Lexeme.piece (tok : Lexeme) : Lexeme.Piece := ⟨tok.span, .ok tok.token⟩

/-- A problem as a piece. -/
def Diagnostic.piece (d : Diagnostic) : Lexeme.Piece := ⟨d.span, .error d.problem⟩

namespace TokenStream

/-- The tokens of a stream other than ends of file, and then its problems. -/
def gathered (s : TokenStream) : List Lexeme.Piece :=
  (s.lexemes.filter (·.token ≠ .eof)).map Lexeme.piece ++ s.diagnostics.map Diagnostic.piece

/-- The tokens of a stream other than ends of file together with its problems,
in the order of their starts. -/
def pieces (s : TokenStream) : List Lexeme.Piece :=
  s.gathered.mergeSort fun a b => a.span.start ≤ b.span.start

theorem gathered_append (a b : TokenStream) : (a ++ b).gathered.Perm (a.gathered ++ b.gathered) := by
  simp only [gathered, lexemes_append, diagnostics_append, List.filter_append, List.map_append,
    List.append_assoc]
  exact List.perm_append_comm_assoc .. |>.append_left _

end TokenStream

namespace Lexeme

/-- A chunk gives one piece. -/
theorem Chunk.gathered_emit (c : Char) (cs : List Char) (m : Mark) (stop : Nat) :
    ((read c cs).emit m stop).gathered = [⟨⟨m.offset, stop⟩, (read c cs).meaning⟩] := by
  rw [emit]
  split
  · rename_i t ht
    have hraw := (isRaw_meaning ht).eof
    simp [TokenStream.gathered, piece, hraw, ht]
  · rename_i problem hproblem
    simp [TokenStream.gathered, Diagnostic.piece, Problem.at, hproblem]

/-- A text is made of what is read in it. -/
theorem exists_tiles_scanFrom (tabWidth : Nat) (m : Mark) (cs : List Char) :
    ∃ pieces, Tiles m.offset cs pieces ∧ (scanFrom tabWidth m cs).gathered.Perm pieces := by
  fun_induction scanFrom tabWidth m cs with
  | case1 => exact ⟨[], .nil, .refl _⟩
  | case2 m c cs hblank ih =>
    obtain ⟨pieces, htiles, hperm⟩ := ih
    rw [Mark.offset_past] at htiles
    exact ⟨pieces, .blank hblank htiles, hperm⟩
  | case3 m c cs hblank chunk next ih =>
    obtain ⟨pieces, htiles, hperm⟩ := ih
    have hnext : next.offset = m.offset + Text.byteLength chunk.text :=
      Chunk.offset_next tabWidth m chunk
    have hdenotes := Chunk.denotes_read cs (by simpa using hblank)
    rw [hnext] at htiles ⊢
    have hall := Tiles.piece (Chunk.text_ne_nil c cs) hdenotes htiles
    rw [Chunk.text_append_rest] at hall
    refine ⟨_, hall, (TokenStream.gathered_append ..).trans ?_⟩
    rw [Chunk.gathered_emit]
    exact hperm.cons _

/-- Pieces of a text are in the order of their starts, whatever order they are
found in. -/
theorem Tiles.pieces_eq {s : TokenStream} {offset : Nat} {cs : List Char} {pieces : List Piece}
    (h : Tiles offset cs pieces) (hperm : s.gathered.Perm pieces) : s.pieces = pieces := by
  have hlt : pieces.Pairwise fun a b => a.span.start < b.span.start := by
    refine (List.pairwise_map.1 h.ordered).imp_of_mem fun ha _ hle => ?_
    exact Nat.lt_of_lt_of_le (h.covers _ ha).start_lt_stop hle
  have hnodup : (pieces.map fun p => p.span.start).Nodup :=
    (List.pairwise_map.2 hlt).imp Nat.ne_of_lt
  have hsorted : s.pieces.Pairwise fun a b => a.span.start ≤ b.span.start := by
    refine (List.pairwise_mergeSort ?_ ?_ _).imp of_decide_eq_true
    · simpa using fun a b c : Piece => Nat.le_trans
    · simpa using fun a b : Piece => Nat.le_total _ _
  have hsame : s.pieces.Perm pieces := (List.mergeSort_perm _ _).trans hperm
  refine hsame.eq_of_pairwise (fun a b ha hb hab hba => ?_) hsorted (hlt.imp Nat.le_of_lt)
  exact List.inj_on_of_nodup_map hnodup (hsame.subset ha) hb (Nat.le_antisymm hab hba)

/-! ## Whole texts -/

/-- What a stream has to say about `source` to leave nothing out. -/
structure Accounted (source : String) (s : TokenStream) : Prop where
  nonempty : ∀ p ∈ s.pieces, p.span.start < p.span.stop
  boundaries : ∀ p ∈ s.pieces,
    Text.IsBoundary source p.span.start ∧ Text.IsBoundary source p.span.stop
  /-- Each piece ends before the next one starts. -/
  ordered : Span.Ordered (s.pieces.map Piece.span)
  /-- A character is blank, or it is a piece's. -/
  covered : ∀ before c after, source.toList = before ++ c :: after → Text.isBlank c = true ∨
    ∃ p ∈ s.pieces, p.span.start ≤ Text.byteLength before ∧
      Text.byteLength before + c.utf8Size ≤ p.span.stop
  ends : ∃ toks eof, s.lexemes = toks ++ [eof] ∧ (∀ tok ∈ toks, tok.token ≠ .eof) ∧
    eof.token = .eof ∧ eof.span = .point source.utf8ByteSize
  denotes : ∀ p ∈ s.pieces, Denotes (p.span.slice source).toList p.meaning

/-- What is read in a text ends with one end of file, behind the text. -/
theorem exists_eof_scanFrom (tabWidth : Nat) (m : Mark) (cs : List Char) :
    ∃ toks eof, (scanFrom tabWidth m cs).lexemes = toks ++ [eof] ∧
      (∀ tok ∈ toks, tok.token ≠ .eof) ∧ eof.token = .eof ∧
        eof.span = .point (m.offset + Text.byteLength cs) := by
  fun_induction scanFrom tabWidth m cs with
  | case1 m => exact ⟨[], _, rfl, List.forall_mem_nil _, rfl, rfl⟩
  | case2 m c cs _ ih =>
    obtain ⟨toks, eof, heq, htoks, heof, hspan⟩ := ih
    rw [Mark.offset_past, Nat.add_assoc] at hspan
    exact ⟨toks, eof, heq, htoks, heof, hspan⟩
  | case3 m c cs _ chunk next ih =>
    obtain ⟨toks, eof, heq, htoks, heof, hspan⟩ := ih
    refine ⟨(chunk.emit m next.offset).lexemes ++ toks, eof, ?_, ?_, heof, ?_⟩
    · rw [TokenStream.lexemes_append, heq, List.append_assoc]
    · refine List.forall_mem_append.2 ⟨?_, htoks⟩
      rw [Chunk.emit]
      split
      · rename_i t ht
        exact List.forall_mem_singleton.2 (Chunk.isRaw_meaning ht).eof
      · exact List.forall_mem_nil _
    · rw [hspan, Chunk.offset_next, Nat.add_assoc, ← Text.byteLength_append, Chunk.text_append_rest]

/-- A stream that a text is made of, with an end of file behind it, leaves nothing
out. -/
theorem Tiles.accounted {source : String} {s : TokenStream} {pieces : List Piece}
    (h : Tiles 0 source.toList pieces) (hperm : s.gathered.Perm pieces)
    (hends : ∃ toks eof, s.lexemes = toks ++ [eof] ∧ (∀ tok ∈ toks, tok.token ≠ .eof) ∧
      eof.token = .eof ∧ eof.span = .point source.utf8ByteSize) : Accounted source s := by
  have hpieces : s.pieces = pieces := h.pieces_eq hperm
  refine ⟨?_, ?_, ?_, ?_, hends, ?_⟩
  · exact hpieces ▸ fun p hp => (h.covers p hp).start_lt_stop
  · exact hpieces ▸ fun p hp => (h.covers p hp).stands.1
  · exact hpieces ▸ h.ordered
  · intro before c after hsource
    have hcovered := h.covered hsource
    rwa [hpieces, ← Nat.zero_add (Text.byteLength before)]
  · exact hpieces ▸ fun p hp => (h.covers p hp).stands.2

theorem ends_scan (tabWidth : Nat) (source : String) :
    ∃ toks eof, (scan tabWidth source).lexemes = toks ++ [eof] ∧
      (∀ tok ∈ toks, tok.token ≠ .eof) ∧ eof.token = .eof ∧
        eof.span = .point source.utf8ByteSize := by
  have hends := exists_eof_scanFrom tabWidth .start source.toList
  rwa [Text.byteLength_toList, show Mark.start.offset = 0 from rfl, Nat.zero_add] at hends

/-- A scan accounts for every character of its text. -/
theorem accounted_scan (tabWidth : Nat) (source : String) :
    Accounted source (scan tabWidth source) := by
  obtain ⟨pieces, htiles, hperm⟩ := exists_tiles_scanFrom tabWidth .start source.toList
  exact htiles.accounted hperm (ends_scan tabWidth source)

end Lexeme

end Offside
