-- SUMMARY: Tokens that are written with blanks between them are scanned as these tokens.
import Offside.Proofs.Lexeme.Accounted
import Offside.Proofs.Lexeme.Spelled
import Offside.Source

/-! # Texts of tokens

`Token.text` writes a token and `scan` reads it. A token before a blank is read
as itself, whatever words begin or end like it: `Token.IsWritable.scans_text`.
So tokens that are written one after another with blanks between them come back,
with an end of file after them: `scanStrict_texts`. -/

namespace Offside

namespace Token

/-- A name as a text can hold it: a word that is neither reserved nor a number,
and that does not start a comment. -/
structure IsName (name : String) : Prop where
  ne_empty : name ≠ ""
  chars : ∀ c ∈ name.toList, Text.isBlank c = false ∧ isDelimiter c = false
  free : name ∉ reserved.map (·.1)
  notNumber : ∃ c ∈ name.toList, c.isDigit = false
  notComment : ¬ ['-', '-'] <+: name.toList

instance : DecidablePred IsName := fun name =>
  decidable_of_iff (name ≠ "" ∧ name.toList.all (fun c => !Text.isBlank c && !isDelimiter c) ∧
      name ∉ reserved.map (·.1) ∧ name.toList.any (!·.isDigit) ∧ ¬ ['-', '-'] <+: name.toList)
    ⟨fun h => ⟨h.1, by simpa using h.2.1, h.2.2.1, by simpa using h.2.2.2.1, h.2.2.2.2⟩,
      fun h => ⟨h.ne_empty, by simpa using h.chars, h.free, by simpa using h.notNumber,
        h.notComment⟩⟩

/-- The name that a token is, if it is one. -/
def name? : Token → Option String
  | ident name => some name
  | _ => none

/-- A token of a program as a text can hold it. -/
structure IsWritable (t : Token) : Prop where
  isComment : t.isComment = false
  isVirtual : t.isVirtual = false
  ne_eof : t ≠ .eof
  isName : ∀ name ∈ t.name?, IsName name

instance : DecidablePred IsWritable := fun t =>
  decidable_of_iff (t.isComment = false ∧ t.isVirtual = false ∧ t ≠ .eof ∧
      ∀ name ∈ t.name?, IsName name)
    ⟨fun h => ⟨h.1, h.2.1, h.2.2.1, h.2.2.2⟩, fun h => ⟨h.isComment, h.isVirtual, h.ne_eof, h.isName⟩⟩

/-- The four ways in which tokens are written. -/
theorem IsWritable.cases {t : Token} (h : t.IsWritable) :
    (t.text, t) ∈ reserved ∨ t ∈ delimiters ∨ (∃ value, t = .integer value) ∨
      ∃ name, t = .ident name ∧ IsName name := by
  cases t with
  | ident name => exact .inr (.inr (.inr ⟨name, rfl, h.isName name rfl⟩))
  | integer value => exact .inr (.inr (.inl ⟨value, rfl⟩))
  | blockStart | blockSep | blockEnd => cases h.isVirtual
  | lineComment body | blockComment body => cases h.isComment
  | eof => exact absurd rfl h.ne_eof
  | unit | lparen | rparen | lbrace | rbrace | semicolon | dot | backslash =>
    exact .inr (.inl (by decide))
  | kwFixity assoc => cases assoc <;> exact .inl (by decide)
  | _ => exact .inl (by decide)

/-- A name is always scanned as that name. -/
theorem IsName.isWord {name : String} (h : IsName name) :
    Lexeme.IsWord name.toList (.ident name) := by
  have hlookup : reserved.lookup name = none := by
    rw [List.lookup_eq_none_iff]
    intro entry hentry
    simp only [bne_iff_ne, ne_eq]
    rintro rfl
    exact h.free (List.mem_map_of_mem hentry)
  have hdigits : name.toList.all Char.isDigit = false := by simpa using h.notNumber
  refine ⟨by simpa using h.ne_empty, fun c hc => ?_, h.notComment, ?_⟩
  · obtain ⟨hblank, hdelimiter⟩ := h.chars c hc
    rw [isWordChar, hblank, hdelimiter]
    rfl
  · simp [ofWord, hlookup, hdigits]

end Token

namespace Lexeme

/-- What stands after a token: a blank, or nothing. -/
def Spaced (rest : List Char) : Prop := ∀ c ∈ rest.head?, c = ' '

theorem Spaced.ends {rest : List Char} (h : Spaced rest) : Ends rest := by
  intro c hc
  obtain rfl := h c hc
  exact ⟨rfl, rfl⟩

/-- A delimiter before a blank is not the start of a longer one. -/
theorem scans_delimiter {t : Token} (ht : t ∈ Token.delimiters) {rest : List Char}
    (hrest : Spaced rest) : Scans t.text.toList rest [t] := by
  simp only [Token.delimiters, List.mem_cons, List.not_mem_nil, or_false] at ht
  cases rest with
  | nil =>
    rcases ht with rfl | rfl | rfl | rfl | rfl | rfl | rfl | rfl
    all_goals exact scans_chunk rfl rfl (by decide) rfl
  | cons c rest =>
    obtain rfl := hrest c rfl
    rcases ht with rfl | rfl | rfl | rfl | rfl | rfl | rfl | rfl
    all_goals exact scans_chunk rfl rfl (by decide) rfl

/-- A token before a blank is scanned as itself. -/
theorem scans_text {t : Token} (ht : t.IsWritable) {rest : List Char} (hrest : Spaced rest) :
    Scans t.text.toList rest [t] := by
  obtain hreserved | hdelimiter | ⟨value, rfl⟩ | ⟨name, rfl, hname⟩ := ht.cases
  · exact (isWord_of_mem_reserved hreserved).scans ht.isComment hrest.ends
  · exact scans_delimiter hdelimiter hrest
  · have hword := isWord_toString value.toNat_lt
    rw [UInt64.ofNat_toNat] at hword
    exact hword.scans rfl hrest.ends
  · exact hname.isWord.scans rfl hrest.ends

/-! ## Whole texts -/

/-- All of the text `cs` is scanned as `ts`, wherever it starts. -/
def Yields (cs : List Char) (ts : List Token) : Prop :=
  ∀ tabWidth m, ∃ toks, scanFrom tabWidth m cs = ⟨toks, []⟩ ∧ toks.map (·.token) = ts ++ [.eof]

theorem yields_nil : Yields [] [] := by
  intro tabWidth m
  exact ⟨_, by rw [scanFrom], rfl⟩

theorem Yields.blank {cs : List Char} {ts : List Token} (h : Yields cs ts) :
    Yields (' ' :: cs) ts := by
  intro tabWidth m
  rw [scanFrom_blank rfl]
  exact h tabWidth _

theorem Scans.yields {cs rest : List Char} {ts us : List Token} (h : Scans cs rest ts)
    (hrest : Yields rest us) : Yields (cs ++ rest) (ts ++ us) := by
  intro tabWidth m
  obtain ⟨m', xs, hxs, hstretch⟩ := h tabWidth m
  obtain ⟨ys, hys, htokens⟩ := hrest tabWidth m'
  refine ⟨xs ++ ys, ?_, ?_⟩
  · rw [hxs, hys]
    rfl
  · rw [List.map_append, hstretch.tokens, htokens, List.append_assoc]

/-- Tokens with blanks between them are scanned one after another. -/
theorem yields_texts {ts : List Token} (hts : ∀ t ∈ ts, t.IsWritable) :
    Yields ([' '].intercalate (ts.map (·.text.toList))) ts := by
  induction ts with
  | nil => exact yields_nil
  | cons t ts ih =>
    obtain ⟨ht, hts⟩ := List.forall_mem_cons.1 hts
    cases ts with
    | nil =>
      have hlast : Scans t.text.toList [] [t] := scans_text ht (by simp [Spaced])
      simpa using hlast.yields yields_nil
    | cons u us =>
      have hrest := (ih hts).blank
      have hfirst := scans_text ht (by simp [Spaced] :
        Spaced (' ' :: [' '].intercalate ((u :: us).map (·.text.toList))))
      rw [List.map_cons, List.map_cons, List.intercalate_cons_cons, List.append_assoc]
      exact hfirst.yields hrest

end Lexeme

namespace Source

/-- Tokens that are written with single blanks between them are read back, and
nothing else is read. -/
theorem scanStrict_texts (ts : List Token) (hts : ∀ t ∈ ts, t.IsWritable) :
    ∃ toks, scanStrict (" ".intercalate (ts.map Token.text)) = .ok toks ∧
      toks.map (·.token) = ts ++ [.eof] := by
  obtain ⟨toks, hscan, htokens⟩ := Lexeme.yields_texts hts ({} : Options).tabWidth .start
  have htext : (" ".intercalate (ts.map Token.text)).toList =
      [' '].intercalate (ts.map (·.text.toList)) := by
    simp [String.toList_intercalate, Function.comp_def]
  refine ⟨toks, ?_, htokens⟩
  rw [scanStrict, Lexeme.scan, htext, hscan]
  rfl

/-- Neighbours that would be one token without the blank, the greatest integer,
and names that begin like a reserved word, a number or an arrow. -/
theorem scanStrict_texts_neighbours : ∃ toks,
    scanStrict "( ) () \x7b - - ->> infixl data' 7up 18446744073709551615 . λx \\ \x7d" = .ok toks ∧
      toks.map (·.token) = [.lparen, .rparen, .unit, .lbrace, .ident "-", .ident "-", .ident "->>",
        .kwFixity .left, .ident "data'", .ident "7up", .integer 18446744073709551615, .dot,
        .ident "λx", .backslash, .rbrace, .eof] :=
  scanStrict_texts [.lparen, .rparen, .unit, .lbrace, .ident "-", .ident "-", .ident "->>",
    .kwFixity .left, .ident "data'", .ident "7up", .integer 18446744073709551615, .dot,
    .ident "λx", .backslash, .rbrace] (by decide)

end Source

end Offside
