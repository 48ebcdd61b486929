-- SUMMARY: A calculus for texts in one line: as which tokens a text is scanned, whatever stands after it.
import Mathlib.Data.List.Chain
import Mathlib.Data.List.TakeWhile
import Offside.Proofs.Layout.Lines

/-! # Spelling

`Spells cs ts` says that the text `cs` is scanned as the tokens `ts`, wherever it
stands before something that does not go on with its last word. Texts with a
blank between them spell one after the other; brackets, dots and the backslash
need no blank. -/

namespace Offside

/-- A token that is neither a dot, a comment nor the end of file. -/
def Token.isWritten : Token → Bool
  | .dot | .lineComment _ | .blockComment _ | .eof => false
  | _ => true

theorem Token.of_isWritten {t : Token} (h : t.isWritten = true) :
    t ≠ .dot ∧ t ≠ .eof ∧ t.isComment = false := by
  refine ⟨?_, ?_, ?_⟩
  · rintro rfl
    cases h
  · rintro rfl
    cases h
  · cases t <;> first | rfl | cases h

namespace Lexeme

/-! ## Stretches of a line -/

/-- Lexemes of the tokens `ts` in one line, from `m` to `m'`. -/
structure Stretch (m m' : Mark) (ts : List Token) (toks : List Lexeme) : Prop where
  tokens : toks.map (·.token) = ts
  joined : toks.IsChain Joined
  first : ∀ tok ∈ toks.head?,
    tok.span.start = m.offset ∧ tok.column = m.column ∧ tok.lineStart = m.fresh
  last : ∀ tok ∈ toks.getLast?, tok.span.stop = m'.offset
  later : ∀ tok ∈ toks.tail, tok.lineStart = false
  used : m'.fresh = false

/-- One stretch after another: directly, or if no dot stands at the gap. -/
theorem Stretch.append {m m₁ m₂ m₃ : Mark} {ts us : List Token} {xs ys : List Lexeme}
    (hx : Stretch m m₁ ts xs) (hy : Stretch m₂ m₃ us ys) (hts : ts ≠ [])
    (hus : us ≠ []) (hfresh : m₂.fresh = false)
    (hgap : m₂.offset = m₁.offset ∨ (∀ t ∈ ts.getLast?, t ≠ .dot) ∧ ∀ u ∈ us.head?, u ≠ .dot) :
    Stretch m m₃ (ts ++ us) (xs ++ ys) := by
  have hxs : xs ≠ [] := by
    rintro rfl
    exact hts hx.tokens.symm
  have hys : ys ≠ [] := by
    rintro rfl
    exact hus hy.tokens.symm
  refine ⟨by rw [List.map_append, hx.tokens, hy.tokens], ?_, ?_, ?_, ?_, hy.used⟩
  · refine List.isChain_append.2 ⟨hx.joined, hy.joined, fun a ha b hb => ?_⟩
    have hstop := hx.last a ha
    have hstart := (hy.first b hb).1
    rcases hgap with hgap | ⟨hlast, hhead⟩
    · have hmeet : a.span.stop = b.span.start := by rw [hstop, hstart, hgap]
      exact ⟨fun _ => hmeet, fun _ => hmeet⟩
    · have hdot : a.token ≠ .dot := by
        refine hlast _ ?_
        rw [← hx.tokens, List.getLast?_map]
        exact Option.mem_map_of_mem _ ha
      have hdot' : b.token ≠ .dot := by
        refine hhead _ ?_
        rw [← hy.tokens, List.head?_map]
        exact Option.mem_map_of_mem _ hb
      exact ⟨fun h => absurd h hdot', fun h => absurd h hdot⟩
  · intro tok htok
    rw [List.head?_append_of_ne_nil _ hxs] at htok
    exact hx.first tok htok
  · intro tok htok
    rw [List.getLast?_append_of_ne_nil _ hys] at htok
    exact hy.last tok htok
  · intro tok htok
    rw [List.tail_append_of_ne_nil hxs] at htok
    rcases List.mem_append.1 htok with htok | htok
    · exact hx.later tok htok
    · cases ys with
      | nil => simp at htok
      | cons y ys =>
        rcases List.mem_cons.1 htok with rfl | htok
        · exact (hy.first _ rfl).2.2.trans hfresh
        · exact hy.later tok htok

/-- The text `cs` before `rest` is scanned as `ts`, and the scan goes on with
`rest`. -/
def Scans (cs rest : List Char) (ts : List Token) : Prop :=
  ∀ tabWidth m, ∃ m' toks, scanFrom tabWidth m (cs ++ rest) =
    ⟨toks, []⟩ ++ scanFrom tabWidth m' rest ∧ Stretch m m' ts toks

section

variable {cs ds rest : List Char} {ts us : List Token}

theorem scanFrom_blank {tabWidth : Nat} {m : Mark} {c : Char} (hc : Text.isBlank c = true) :
    scanFrom tabWidth m (c :: cs) = scanFrom tabWidth (m.past tabWidth c) cs := by
  rw [scanFrom, if_pos hc]

theorem Scans.append (hcs : Scans cs (ds ++ rest) ts) (hds : Scans ds rest us) (hts : ts ≠ [])
    (hus : us ≠ []) : Scans (cs ++ ds) rest (ts ++ us) := by
  intro tabWidth m
  obtain ⟨m₁, xs, hxs, hx⟩ := hcs tabWidth m
  obtain ⟨m₂, ys, hys, hy⟩ := hds tabWidth m₁
  refine ⟨m₂, xs ++ ys, ?_, hx.append hy hts hus hx.used (.inl rfl)⟩
  rw [List.append_assoc, hxs, hys, ← TokenStream.append_assoc]
  rfl

theorem Scans.blank (hcs : Scans cs (' ' :: (ds ++ rest)) ts) (hds : Scans ds rest us)
    (hts : ts ≠ []) (hus : us ≠ []) (hlast : ∀ t ∈ ts.getLast?, t ≠ .dot)
    (hhead : ∀ u ∈ us.head?, u ≠ .dot) : Scans (cs ++ ' ' :: ds) rest (ts ++ us) := by
  intro tabWidth m
  obtain ⟨m₁, xs, hxs, hx⟩ := hcs tabWidth m
  obtain ⟨m₂, ys, hys, hy⟩ := hds tabWidth (m₁.past tabWidth ' ')
  refine ⟨m₂, xs ++ ys, ?_, hx.append hy hts hus hx.used (.inr ⟨hlast, hhead⟩)⟩
  rw [List.append_assoc, List.cons_append, hxs, scanFrom_blank rfl, hys, ← TokenStream.append_assoc]
  rfl

/-! ## Single tokens -/

/-- A chunk is scanned as its token. -/
theorem scans_chunk {c : Char} {t : Token} (hread : Chunk.read c (cs ++ rest) = ⟨.ok t, c :: cs, rest⟩)
    (hblank : Text.isBlank c = false) (hline : '\n' ∉ c :: cs) (ht : t.isComment = false) :
    Scans (c :: cs) rest [t] := by
  intro tabWidth m
  let m' := ({ m with fresh := false } : Mark).pastAll tabWidth (c :: cs)
  refine ⟨m', [⟨t, ⟨m.offset, m'.offset⟩, m.line, m.column, m.fresh⟩], ?_, rfl, .singleton _, ?_, ?_,
    ?_, ?_⟩
  · rw [List.cons_append, scanFrom, hblank]
    simp only [Bool.false_eq_true, if_false, hread, Chunk.emit, Chunk.next, ht, Bool.and_false,
      Bool.not_false, Bool.and_true]
    rfl
  · rintro tok ⟨⟩
    exact ⟨rfl, rfl, rfl⟩
  · rintro tok ⟨⟩
    rfl
  · exact List.forall_mem_nil _
  · exact Mark.fresh_pastAll hline

/-- A word that is always scanned as `t`. -/
structure IsWord (word : List Char) (t : Token) : Prop where
  ne_nil : word ≠ []
  chars : ∀ c ∈ word, Token.isWordChar c = true
  dashes : ¬ ['-', '-'] <+: word
  meaning : Token.ofWord word none = some t

/-- Whether a word is always scanned as `t`. -/
def isWord (word : List Char) (t : Token) : Bool :=
  !word.isEmpty && word.all Token.isWordChar && !(['-', '-'].isPrefixOf word) &&
    Token.ofWord word none == some t

theorem IsWord.of_isWord {word : List Char} {t : Token} (h : isWord word t = true) : IsWord word t := by
  simp only [isWord, Bool.and_eq_true, Bool.not_eq_true', List.isEmpty_eq_false_iff, List.all_eq_true,
    beq_iff_eq] at h
  obtain ⟨⟨⟨hne, hchars⟩, hdashes⟩, hmeaning⟩ := h
  refine ⟨hne, hchars, fun hprefix => ?_, hmeaning⟩
  rw [List.isPrefixOf_iff_prefix.2 hprefix] at hdashes
  cases hdashes

/-- What may stand after a word without a change to it. -/
def Ends (rest : List Char) : Prop :=
  ∀ c ∈ rest.head?, Token.isWordChar c = false ∧ Text.isWideBlank c = false

theorem ofWord_of_ends {word : List Char} (h : Ends rest) :
    Token.ofWord word rest.head? = Token.ofWord word none := by
  have hnone : rest.head?.any Text.isWideBlank = false := by
    cases rest with
    | nil => rfl
    | cons c rest => simpa using (h c rfl).2
  simp only [Token.ofWord, hnone, Bool.and_false, Option.any_none]

theorem Chunk.read_lparen (h : cs.head? ≠ some ')') : read '(' cs = single .lparen '(' cs := by
  unfold read
  split <;> simp_all

theorem Chunk.read_lbrace (h : cs.head? ≠ some '-') : read '\x7b' cs = single .lbrace '\x7b' cs := by
  unfold read
  split <;> simp_all

theorem read_word {c : Char} (hc : Token.isWordChar c = true) (hdash : ¬ ['-', '-'] <+: c :: cs) :
    Chunk.read c cs = Chunk.word c cs := by
  unfold Chunk.read
  split
  all_goals first
    | rfl
    | exact absurd hc (by decide)
    | exact absurd (List.prefix_append ['-', '-'] _) hdash

/-- A word ends before something that does not go on with it. -/
theorem takeWhile_isWordChar (hrest : ∀ c ∈ rest.head?, Token.isWordChar c = false) :
    rest.takeWhile Token.isWordChar = [] ∧ rest.dropWhile Token.isWordChar = rest := by
  cases rest with
  | nil => exact ⟨rfl, rfl⟩
  | cons d rest => simp [hrest d rfl]

/-- A word before something that does not go on with it is scanned as its token. -/
theorem IsWord.scans {t : Token} (hword : IsWord cs t) (ht : t.isComment = false)
    (hrest : Ends rest) : Scans cs rest [t] := by
  obtain ⟨hne, hchars, hdashes, hmeaning⟩ := hword
  cases cs with
  | nil => exact absurd rfl hne
  | cons c cs =>
    obtain ⟨hc, hcs⟩ := List.forall_mem_cons.1 hchars
    have hstop := takeWhile_isWordChar fun d hd => (hrest d hd).1
    have htake : (cs ++ rest).takeWhile Token.isWordChar = cs := by
      rw [List.takeWhile_append_of_pos hcs, hstop.1, List.append_nil]
    have hdrop : (cs ++ rest).dropWhile Token.isWordChar = rest := by
      rw [List.dropWhile_append_of_pos hcs, hstop.2]
    have hdashes' : ¬ ['-', '-'] <+: c :: (cs ++ rest) := by
      intro h
      cases cs with
      | nil =>
        cases rest with
        | nil => simp at h
        | cons d rest =>
          obtain ⟨-, rfl⟩ : '-' = c ∧ '-' = d := by simpa using h
          exact absurd (hrest '-' rfl).1 (by decide)
      | cons d cs =>
        apply hdashes
        simpa using h
    refine scans_chunk ?_ ?_ ?_ ht
    · rw [read_word hc hdashes', Chunk.word, htake, hdrop, ofWord_of_ends hrest, hmeaning]
    · simp only [Token.isWordChar, Bool.and_eq_true, Bool.not_eq_true'] at hc
      exact hc.1
    · intro hnewline
      exact absurd (hchars _ hnewline) (by decide)

/-! ## Spellings -/

/-- The text is scanned as the tokens, whatever stands after it but does not go
on with its last word. No dot stands at its ends, so that a blank may follow. -/
structure Spells (cs : List Char) (ts : List Token) : Prop where
  ne_nil : ts ≠ []
  real : ∀ t ∈ ts, t ≠ .eof ∧ t.isComment = false
  starts : ∃ c ∈ cs.head?, c ≠ ')'
  head : ∀ t ∈ ts.head?, t ≠ .dot
  last : ∀ t ∈ ts.getLast?, t ≠ .dot
  scans : ∀ rest, Ends rest → Scans cs rest ts

theorem ends_cons {c : Char} (h : Token.isWordChar c = false) (hwide : Text.isWideBlank c = false)
    (rest : List Char) : Ends (c :: rest) := by
  rintro _ ⟨⟩
  exact ⟨h, hwide⟩

/-- A single token. -/
theorem spells_single {t : Token} (ht : t.isWritten = true) (hstarts : ∃ c ∈ cs.head?, c ≠ ')')
    (hscans : ∀ rest, Ends rest → Scans cs rest [t]) : Spells cs [t] := by
  obtain ⟨hdot, hreal⟩ := Token.of_isWritten ht
  exact ⟨by simp, by simpa using hreal, hstarts, by simpa using hdot, by simpa using hdot, hscans⟩

theorem IsWord.spells {t : Token} (hword : IsWord cs t) (ht : t.isWritten = true) : Spells cs [t] := by
  refine spells_single ht ?_ fun rest hrest => hword.scans (Token.of_isWritten ht).2.2 hrest
  cases cs with
  | nil => exact absurd rfl hword.ne_nil
  | cons c cs =>
    refine ⟨c, rfl, ?_⟩
    rintro rfl
    exact absurd (hword.chars ')' List.mem_cons_self) (by decide)

theorem spells_lbrace : Spells ['\x7b'] [.lbrace] := by
  refine spells_single rfl ⟨'\x7b', rfl, by decide⟩ fun rest hrest =>
    scans_chunk (Chunk.read_lbrace fun hdash => ?_) rfl (by decide) rfl
  exact absurd (hrest '-' hdash).1 (by decide)

theorem spells_rbrace : Spells ['\x7d'] [.rbrace] :=
  spells_single rfl ⟨'\x7d', rfl, by decide⟩ fun _ _ => scans_chunk rfl rfl (by decide) rfl

theorem spells_semicolon : Spells [';'] [.semicolon] :=
  spells_single rfl ⟨';', rfl, by decide⟩ fun _ _ => scans_chunk rfl rfl (by decide) rfl

theorem spells_unit : Spells ['(', ')'] [.unit] :=
  spells_single rfl ⟨'(', rfl, by decide⟩ fun _ _ => scans_chunk rfl rfl (by decide) rfl

namespace Spells

/-- Texts with a blank between them. -/
theorem blank (hcs : Spells cs ts) (hds : Spells ds us) : Spells (cs ++ ' ' :: ds) (ts ++ us) := by
  refine ⟨by simp [hcs.ne_nil], List.forall_mem_append.2 ⟨hcs.real, hds.real⟩, ?_, ?_, ?_,
    fun rest hrest => ?_⟩
  · obtain ⟨c, hc, hparen⟩ := hcs.starts
    exact ⟨c, by rw [List.head?_append, hc]; rfl, hparen⟩
  · rw [List.head?_append_of_ne_nil _ hcs.ne_nil]
    exact hcs.head
  · rw [List.getLast?_append_of_ne_nil _ hds.ne_nil]
    exact hds.last
  · exact (hcs.scans _ (ends_cons rfl rfl _)).blank (hds.scans rest hrest) hcs.ne_nil hds.ne_nil
      hcs.last hds.head

/-- A text in brackets that need no blanks. -/
theorem enclose {opener closer : Char} {t u : Token} (hcs : Spells cs ts)
    (hopener : ∀ rest, Scans [opener] (cs ++ closer :: rest) [t])
    (hcloser : ∀ rest, Scans [closer] rest [u]) (hends : ∀ rest, Ends (closer :: rest))
    (hparen : opener ≠ ')') (ht : t.isWritten = true) (hu : u.isWritten = true) :
    Spells (opener :: cs ++ [closer]) (t :: ts ++ [u]) := by
  obtain ⟨htdot, htreal⟩ := Token.of_isWritten ht
  obtain ⟨hudot, hureal⟩ := Token.of_isWritten hu
  refine ⟨by simp, ?_, ⟨opener, rfl, hparen⟩, by simpa using htdot, ?_, fun rest _ => ?_⟩
  · exact List.forall_mem_append.2 ⟨List.forall_mem_cons.2 ⟨htreal, hcs.real⟩, by simpa using hureal⟩
  · rw [List.getLast?_append_of_ne_nil _ (by simp)]
    simpa using hudot
  have hinner : Scans cs ([closer] ++ rest) ts := hcs.scans _ (hends rest)
  have hinside := hinner.append (hcloser rest) hcs.ne_nil (by simp)
  have hopen : Scans [opener] ((cs ++ [closer]) ++ rest) [t] := by
    rw [List.append_assoc]
    exact hopener rest
  exact hopen.append hinside (by simp) (by simp)

theorem paren (hcs : Spells cs ts) :
    Spells ('(' :: cs ++ [')']) (.lparen :: ts ++ [.rparen]) := by
  refine hcs.enclose (fun rest => ?_) (fun rest => ?_) (ends_cons rfl rfl) (by decide) rfl rfl
  · obtain ⟨c, hc, hparen⟩ := hcs.starts
    refine scans_chunk (Chunk.read_lparen ?_) rfl (by decide) rfl
    rw [List.nil_append, List.head?_append, hc]
    simpa using hparen
  · exact scans_chunk rfl rfl (by decide) rfl

theorem implicit (hcs : Spells cs ts) (hdash : ∀ c ∈ cs.head?, c ≠ '-') :
    Spells ('\x7b' :: cs ++ ['\x7d']) (.lbrace :: ts ++ [.rbrace]) := by
  refine hcs.enclose (fun rest => ?_) (fun rest => ?_) (ends_cons rfl rfl) (by decide) rfl rfl
  · obtain ⟨c, hc, -⟩ := hcs.starts
    refine scans_chunk (Chunk.read_lbrace ?_) rfl (by decide) rfl
    rw [List.nil_append, List.head?_append, hc]
    simpa using hdash c hc
  · exact scans_chunk rfl rfl (by decide) rfl

theorem backslash (hcs : Spells cs ts) : Spells ('\\' :: cs) (.backslash :: ts) := by
  refine ⟨by simp, List.forall_mem_cons.2 ⟨by simp [Token.isComment], hcs.real⟩,
    ⟨'\\', rfl, by decide⟩, by simp, ?_, fun rest hrest => ?_⟩
  · rw [← List.singleton_append, List.getLast?_append_of_ne_nil _ hcs.ne_nil]
    exact hcs.last
  · have hfirst : Scans ['\\'] (cs ++ rest) [.backslash] := scans_chunk rfl rfl (by decide) rfl
    exact hfirst.append (hcs.scans rest hrest) (by simp) hcs.ne_nil

theorem dotted (hcs : Spells cs ts) (hds : Spells ds us) :
    Spells (cs ++ '.' :: ds) (ts ++ .dot :: us) := by
  refine ⟨by simp, ?_, ?_, ?_, ?_, fun rest hrest => ?_⟩
  · exact List.forall_mem_append.2 ⟨hcs.real,
      List.forall_mem_cons.2 ⟨by simp [Token.isComment], hds.real⟩⟩
  · obtain ⟨c, hc, hparen⟩ := hcs.starts
    exact ⟨c, by rw [List.head?_append, hc]; rfl, hparen⟩
  · rw [List.head?_append_of_ne_nil _ hcs.ne_nil]
    exact hcs.head
  · rw [List.getLast?_append_of_ne_nil _ (by simp), ← List.singleton_append,
      List.getLast?_append_of_ne_nil _ hds.ne_nil]
    exact hds.last
  · have hdot : Scans ['.'] (ds ++ rest) [.dot] := scans_chunk rfl rfl (by decide) rfl
    have htail := hdot.append (hds.scans rest hrest) (by simp) hds.ne_nil
    exact (hcs.scans _ (ends_cons rfl rfl _)).append htail hcs.ne_nil (by simp)

/-! ## Lists -/

/-- Texts with a separator and blanks between them. -/
theorem intercalate {sep : List Char} {t : Token} (hsep : Spells sep [t]) {texts : List (List Char)}
    {tss : List (List Token)} (h : List.Forall₂ Spells texts tss) (hne : texts ≠ []) :
    Spells ((' ' :: sep ++ [' ']).intercalate texts) ([t].intercalate tss) := by
  induction h with
  | nil => exact absurd rfl hne
  | @cons cs ts texts tss hcs hrest ih =>
    cases hrest with
    | nil => simpa [List.intercalate] using hcs
    | cons hds hrest =>
      have htail := hsep.blank (ih (by simp))
      rw [List.intercalate_cons_cons, List.intercalate_cons_cons]
      simpa using hcs.blank htail

/-- Texts with blanks between them. -/
theorem unwords {texts : List (List Char)} {tss : List (List Token)}
    (h : List.Forall₂ Spells texts tss) (hne : texts ≠ []) :
    Spells ([' '].intercalate texts) tss.flatten := by
  induction h with
  | nil => exact absurd rfl hne
  | @cons cs ts texts tss hcs hrest ih =>
    cases hrest with
    | nil => simpa [List.intercalate] using hcs
    | cons hds hrest =>
      rw [List.intercalate_cons_cons, List.flatten_cons]
      simpa using hcs.blank (ih (by simp))

end Spells

/-! ## Words -/

theorem isWord_of_mem_reserved {w : String} {t : Token} (h : (w, t) ∈ Token.reserved) :
    IsWord w.toList t := by
  have hall : (Token.reserved.all fun entry => isWord entry.1.toList entry.2) = true := by
    decide +kernel
  exact .of_isWord (List.all_eq_true.1 hall (w, t) h)

/-- No reserved word is a number. -/
theorem lookup_reserved_of_digits {word : List Char} (h : word.all Char.isDigit = true) :
    Token.reserved.lookup (String.ofList word) = none := by
  rw [List.lookup_eq_none_iff]
  intro entry hentry
  have hno : ∀ e ∈ Token.reserved, e.1.toList.all Char.isDigit = false := by decide
  simp only [bne_iff_ne, ne_eq]
  intro heq
  have hfalse := hno entry hentry
  rw [← heq, String.toList_ofList, h] at hfalse
  exact absurd hfalse (by decide)

theorem isWordChar_of_isDigit {c : Char} (h : c.isDigit = true) : Token.isWordChar c = true := by
  have hrange : 48 ≤ c.toNat ∧ c.toNat ≤ 57 := by
    simpa [Char.isDigit, UInt32.le_iff_toNat_le] using h
  have hblank : Text.isBlank c = false := by
    simp only [Text.isBlank, Text.blankRanges, List.any_cons, List.any_nil, Bool.or_false]
    simp only [Bool.or_eq_false_iff, Bool.and_eq_false_iff, decide_eq_false_iff_not]
    omega
  have hdelimiter : Token.isDelimiter c = false := by
    have hno : ∀ d ∈ ['(', ')', '\x7b', '\x7d', ';', '.', '\\'], d.isDigit = false := by simp
    rw [Token.isDelimiter, List.contains_eq_mem, decide_eq_false_iff_not]
    intro hmem
    rw [hno c hmem] at h
    exact absurd h (by decide)
  rw [Token.isWordChar, hblank, hdelimiter]
  rfl

theorem isWord_toString {n : Nat} (h : n < UInt64.size) :
    IsWord (toString n).toList (.integer (.ofNat n)) := by
  have hdigits : ∀ c ∈ Nat.toDigits 10 n, c.isDigit = true := fun c hc =>
    Nat.isDigit_of_mem_toDigits (by decide) (by decide) hc
  have hlist : (toString n).toList = Nat.toDigits 10 n := by
    rw [Nat.toString_eq_repr, Nat.toList_repr]
  have hall : (Nat.toDigits 10 n).all Char.isDigit = true := List.all_eq_true.2 hdigits
  rw [hlist]
  refine ⟨Nat.toDigits_ne_nil, fun c hc => ?_, fun hdash => ?_, ?_⟩
  · exact isWordChar_of_isDigit (hdigits c hc)
  · have hmem : '-' ∈ Nat.toDigits 10 n := hdash.subset (by simp)
    exact absurd (hdigits _ hmem) (by decide)
  · have hvalue : Token.decimalValue (Nat.toDigits 10 n) = n :=
      Nat.ofDigitChars_eq_foldl.symm.trans Nat.ofDigitChars_ten_toDigits
    simp [Token.ofWord, lookup_reserved_of_digits hall, hall, hvalue, h]

end

/-! ## Names -/

theorem Chunk.read_eq_word {c : Char} {cs : List Char} {name : String}
    (h : (Chunk.read c cs).meaning = .ok (.ident name)) :
    Chunk.read c cs = Chunk.word c cs ∧ Token.isDelimiter c = false ∧ ¬ ['-', '-'] <+: c :: cs := by
  unfold Chunk.read at h ⊢
  split at h
  case h_4 =>
    rw [blockComment] at h
    split at h <;> simp at h
  case h_11 =>
    rename_i hdashes
    refine ⟨rfl, by simp_all [Token.isDelimiter], ?_⟩
    rintro ⟨rest, hrest⟩
    obtain ⟨rfl, rfl⟩ := List.cons.inj hrest
    exact hdashes rest rfl rfl
  all_goals simp [single, lineComment] at h

/-- A word that is a name somewhere is a name everywhere, if it is not reserved. -/
theorem ofWord_of_ident {word : List Char} {next : Option Char} {name : String}
    (h : Token.ofWord word next = some (.ident name)) (hfree : Token.reserved.lookup name = none) :
    name = String.ofList word ∧ Token.ofWord word none = some (.ident name) := by
  obtain hreserved | ⟨-, -, heq⟩ | ⟨hdigits, heq, -⟩ := ofWord_cases h
  · simp [Token.reserved] at hreserved
  · cases heq
  · obtain rfl := Token.ident.inj heq
    refine ⟨rfl, ?_⟩
    simp [Token.ofWord, hfree, hdigits]

theorem Chunk.isWord_meaning {c : Char} {cs : List Char} {name : String} (hblank : Text.isBlank c = false)
    (h : (Chunk.read c cs).meaning = .ok (.ident name)) (hfree : Token.reserved.lookup name = none) :
    IsWord name.toList (.ident name) := by
  obtain ⟨hread, hdelimiter, hdashes⟩ := read_eq_word h
  have hmeaning : Token.ofWord (c :: cs.takeWhile Token.isWordChar)
      (cs.dropWhile Token.isWordChar).head? = some (.ident name) := by
    simp only [hread, word] at h
    split at h
    · rename_i t ht
      rw [ht, Except.ok.inj h]
    · simp at h
  obtain ⟨rfl, halone⟩ := ofWord_of_ident hmeaning hfree
  rw [String.toList_ofList]
  refine ⟨by simp, List.forall_mem_cons.2 ⟨?_, fun d => List.mem_takeWhile_imp⟩, fun hstart => ?_, halone⟩
  · rw [Token.isWordChar, hblank, hdelimiter]
    rfl
  · exact hdashes (hstart.trans (List.cons_prefix_cons.2 ⟨rfl, List.takeWhile_prefix _⟩))

/-- A name of a text that is no reserved word is always scanned as that name. -/
theorem isWord_of_mem_scanFrom (tabWidth : Nat) (m : Mark) (cs : List Char) :
    ∀ tok ∈ (scanFrom tabWidth m cs).lexemes, ∀ name, tok.token = .ident name →
      Token.reserved.lookup name = none → IsWord name.toList (.ident name) := by
  fun_induction scanFrom tabWidth m cs with
  | case1 => simp
  | case2 _ _ _ _ ih => exact ih
  | case3 m c cs hblank chunk next ih =>
    rw [TokenStream.lexemes_append]
    refine List.forall_mem_append.2 ⟨?_, ih⟩
    rw [Chunk.emit]
    split
    · rename_i t ht
      intro tok htok name hname hfree
      obtain rfl := List.mem_singleton.1 htok
      obtain rfl : t = .ident name := hname
      exact Chunk.isWord_meaning (by simpa using hblank) ht hfree
    · simp

/-! ## Lines -/

/-- A line of text: blanks, and a text that spells the tokens of the line. -/
structure SpellsLine (text : List Char) (line : Layout.Line) : Prop where
  spells : ∃ cs, text = List.replicate line.indent ' ' ++ cs ∧ Spells cs line.tokens
  first : ∃ t ∈ line.tokens.head?, t ≠ .lbrace ∧ t ≠ .kwIn ∧ t.closesBracket = false

theorem SpellsLine.indented {text : List Char} {line : Layout.Line} (h : SpellsLine text line)
    (count : Nat) : SpellsLine (List.replicate count ' ' ++ text) (line.indented count) := by
  obtain ⟨cs, rfl, hcs⟩ := h.spells
  refine ⟨⟨cs, ?_, hcs⟩, h.first⟩
  rw [← List.append_assoc, List.replicate_append_replicate, Nat.add_comm]
  rfl

theorem scanFrom_blanks (tabWidth : Nat) (m : Mark) (count : Nat) (cs : List Char) :
    ∃ m', scanFrom tabWidth m (List.replicate count ' ' ++ cs) = scanFrom tabWidth m' cs ∧
      m'.column = m.column + count ∧ m'.fresh = m.fresh := by
  induction count generalizing m with
  | zero => exact ⟨m, rfl, rfl, rfl⟩
  | succ count ih =>
    obtain ⟨m', hscan, hcolumn, hfresh⟩ := ih (m.past tabWidth ' ')
    refine ⟨m', ?_, ?_, hfresh⟩
    · rw [List.replicate_succ, List.cons_append, scanFrom_blank rfl, hscan]
    · rw [hcolumn]
      change m.column + 1 + count = _
      omega

/-- A line is scanned as its tokens, from the left margin to the left margin. -/
theorem SpellsLine.scans {text : List Char} {line : Layout.Line} (h : SpellsLine text line)
    (tabWidth : Nat) {m : Mark} (hfresh : m.fresh = true) (hcolumn : m.column = 1) (rest : List Char) :
    ∃ tok toks m', scanFrom tabWidth m (text ++ '\n' :: rest) =
        ⟨tok :: toks, []⟩ ++ scanFrom tabWidth m' rest ∧ m'.fresh = true ∧ m'.column = 1 ∧
      Layout.IsLine 1 line tok toks ∧
      ∀ tok' ∈ tok :: toks, tok'.token ≠ .eof ∧ tok'.token.isComment = false := by
  obtain ⟨cs, rfl, hcs⟩ := h.spells
  obtain ⟨m₁, hblanks, hcolumn₁, hfresh₁⟩ :=
    scanFrom_blanks tabWidth m line.indent (cs ++ '\n' :: rest)
  obtain ⟨m₂, toks, hscan, hstretch⟩ := hcs.scans ('\n' :: rest) (ends_cons rfl rfl _) tabWidth m₁
  cases toks with
  | nil => exact absurd hstretch.tokens.symm hcs.ne_nil
  | cons tok toks =>
    obtain ⟨-, hfirst, hstart⟩ := hstretch.first tok rfl
    refine ⟨tok, toks, m₂.past tabWidth '\n', ?_, rfl, rfl, ⟨⟨h.first, hcs.head, hcs.last⟩,
      hstretch.tokens, ?_, ?_, hstretch.later, hstretch.joined⟩, ?_⟩
    · rw [List.append_assoc, hblanks, hscan, scanFrom_blank rfl]
    · rw [hfirst, hcolumn₁, hcolumn]
    · rw [hstart, hfresh₁, hfresh]
    · intro tok' htok'
      refine hcs.real _ ?_
      rw [← hstretch.tokens]
      exact List.mem_map_of_mem htok'

/-- A text in lines is scanned line by line. -/
theorem scanFrom_lines {texts : List (List Char)} {lines : List Layout.Line}
    (h : List.Forall₂ SpellsLine texts lines) (tabWidth : Nat) {m : Mark} (hfresh : m.fresh = true)
    (hcolumn : m.column = 1) : ∃ toks m', scanFrom tabWidth m (texts.flatMap (· ++ ['\n'])) =
        ⟨toks, []⟩ ++ scanFrom tabWidth m' [] ∧ Layout.Lines 1 lines toks ∧
      ∀ tok ∈ toks, tok.token ≠ .eof ∧ tok.token.isComment = false := by
  induction h generalizing m with
  | nil => exact ⟨[], m, rfl, .nil, List.forall_mem_nil _⟩
  | @cons text line texts lines hline _ ih =>
    obtain ⟨tok, toks, m₁, hscan, hfresh₁, hcolumn₁, hisLine, hreal⟩ :=
      hline.scans tabWidth hfresh hcolumn (texts.flatMap (· ++ ['\n']))
    obtain ⟨others, m₂, hscan', hlines, hreal'⟩ := ih hfresh₁ hcolumn₁
    refine ⟨tok :: toks ++ others, m₂, ?_, .cons hisLine hlines,
      List.forall_mem_append.2 ⟨hreal, hreal'⟩⟩
    rw [List.flatMap_cons, List.append_assoc, List.singleton_append, hscan, hscan',
      ← TokenStream.append_assoc]
    rfl

end Lexeme

end Offside
