-- SUMMARY: Reading a source text as lexemes.
import Offside.Lexeme

/-! # Scanning

`scan` cuts a text into chunks. A chunk is the longest of these that starts at
its first character: a word, a delimiter, the two characters `()`, or a
comment. Each chunk gives a token or a problem, and nothing but blanks stands
between chunks: `Chunk.text_append_rest`. -/

namespace Offside

namespace Lexeme

/-! ## Chunks -/

/-- A stretch of text, what it means, and the text after it. -/
structure Chunk where
  meaning : Except Problem Token
  text : List Char
  rest : List Char

/-- The body of a block comment and the text after its end. `depth` counts the
inner comments that are still open. -/
def commentBody : (depth : Nat) → List Char → Option (List Char × List Char)
  | _, [] => none
  | depth, '\x7b' :: '-' :: cs =>
    (commentBody (depth + 1) cs).map fun (body, rest) => ('\x7b' :: '-' :: body, rest)
  | 0, '-' :: '\x7d' :: cs => some ([], cs)
  | depth + 1, '-' :: '\x7d' :: cs =>
    (commentBody depth cs).map fun (body, rest) => ('-' :: '\x7d' :: body, rest)
  | depth, c :: cs => (commentBody depth cs).map fun (body, rest) => (c :: body, rest)

namespace Chunk

/-- The single character `c` as `token`. -/
def single (token : Token) (c : Char) (rest : List Char) : Chunk := ⟨.ok token, [c], rest⟩

/-- The block comment whose opening bracket stands before `cs`. A comment that
is not closed takes all of the text. -/
def blockComment (cs : List Char) : Chunk :=
  match commentBody 0 cs with
  | some (body, rest) =>
    ⟨.ok (.blockComment (String.ofList body)), '\x7b' :: '-' :: body ++ ['-', '\x7d'], rest⟩
  | none => ⟨.error .unterminatedComment, '\x7b' :: '-' :: cs, []⟩

/-- The line comment whose dashes stand before `cs`. -/
def lineComment (cs : List Char) : Chunk :=
  let body := cs.takeWhile (· ≠ '\n')
  ⟨.ok (.lineComment (String.ofList body)), '-' :: '-' :: body, cs.dropWhile (· ≠ '\n')⟩

/-- The word that begins with `c`. -/
def word (c : Char) (cs : List Char) : Chunk :=
  let text := c :: cs.takeWhile Token.isWordChar
  let rest := cs.dropWhile Token.isWordChar
  let meaning := match Token.ofWord text rest.head? with
    | some token => .ok token
    | none => .error (.integerTooLarge (String.ofList text))
  ⟨meaning, text, rest⟩

/-- The chunk that starts with the character `c`, which is not blank, and goes
on with `cs`. -/
def read (c : Char) (cs : List Char) : Chunk :=
  match c, cs with
  | '(', ')' :: rest => ⟨.ok .unit, ['(', ')'], rest⟩
  | '(', _ => single .lparen c cs
  | ')', _ => single .rparen c cs
  | '\x7b', '-' :: rest => blockComment rest
  | '\x7b', _ => single .lbrace c cs
  | '\x7d', _ => single .rbrace c cs
  | ';', _ => single .semicolon c cs
  | '.', _ => single .dot c cs
  | '\\', _ => single .backslash c cs
  | '-', '-' :: rest => lineComment rest
  | _, _ => word c cs

end Chunk

/-- A comment's body, its closing bracket and the rest are the text. -/
theorem commentBody_eq_some {depth : Nat} {cs body rest : List Char}
    (h : commentBody depth cs = some (body, rest)) : cs = body ++ '-' :: '\x7d' :: rest := by
  fun_induction commentBody depth cs generalizing body rest with
  | case1 => simp at h
  | case2 depth cs ih =>
    obtain ⟨⟨b, r⟩, hb, heq⟩ := Option.map_eq_some_iff.1 h
    obtain ⟨rfl, rfl⟩ := Prod.mk.inj heq
    simp [ih hb]
  | case3 => simp_all
  | case4 depth cs ih =>
    obtain ⟨⟨b, r⟩, hb, heq⟩ := Option.map_eq_some_iff.1 h
    obtain ⟨rfl, rfl⟩ := Prod.mk.inj heq
    simp [ih hb]
  | case5 depth c cs _ _ _ ih =>
    obtain ⟨⟨b, r⟩, hb, heq⟩ := Option.map_eq_some_iff.1 h
    obtain ⟨rfl, rfl⟩ := Prod.mk.inj heq
    simp [ih hb]

/-- A chunk and the rest are the whole text. -/
theorem Chunk.text_append_rest (c : Char) (cs : List Char) :
    (read c cs).text ++ (read c cs).rest = c :: cs := by
  unfold read
  split <;> try rfl
  · simp only [blockComment]
    split
    · rename_i h
      simp [commentBody_eq_some h]
    · simp
  · simp [lineComment, List.takeWhile_append_dropWhile]
  · simp [word, List.takeWhile_append_dropWhile]

/-- A chunk is not empty. -/
theorem Chunk.text_ne_nil (c : Char) (cs : List Char) : (read c cs).text ≠ [] := by
  unfold read
  split <;> try simp [single, lineComment, word]
  simp only [blockComment]
  split <;> simp

/-- Reading a chunk makes progress. -/
theorem Chunk.length_rest_lt (c : Char) (cs : List Char) :
    (read c cs).rest.length < (c :: cs).length := by
  have hlen := congrArg List.length (text_append_rest c cs)
  have hpos := List.length_pos_iff.2 (text_ne_nil c cs)
  rw [List.length_append] at hlen
  omega

/-! ## Marks -/

/-- How far a text has been read. -/
structure Mark where
  offset : Nat
  line : Nat
  column : Nat
  /-- Whether the line has held no token so far but comments. -/
  fresh : Bool
  deriving DecidableEq, Repr

namespace Mark

/-- The start of a text. -/
def start : Mark := ⟨0, 1, 1, true⟩

/-- Past the character `c`: a newline starts a fresh line, a tab goes to the
next tab stop. -/
def past (tabWidth : Nat) (m : Mark) (c : Char) : Mark :=
  if c = '\n' then ⟨m.offset + c.utf8Size, m.line + 1, 1, true⟩
  else
    let column :=
      if c = '\t' ∧ 0 < tabWidth then ((m.column - 1) / tabWidth + 1) * tabWidth + 1
      else m.column + 1
    ⟨m.offset + c.utf8Size, m.line, column, m.fresh⟩

/-- Past all of a text. -/
def pastAll (tabWidth : Nat) (m : Mark) (cs : List Char) : Mark :=
  cs.foldl (past tabWidth) m

end Mark

/-! ## The whole text -/

/-- The lexeme or the problem that a chunk read at `m` up to `stop` gives. -/
def Chunk.emit (chunk : Chunk) (m : Mark) (stop : Nat) : TokenStream :=
  match chunk.meaning with
  | .ok token =>
    ⟨[⟨token, ⟨m.offset, stop⟩, m.line, m.column, m.fresh && !token.isComment⟩], []⟩
  | .error problem => ⟨[], [problem.at ⟨m.offset, stop⟩]⟩

/-- Where reading goes on when a chunk has been read at `m`. Only a token other
than a comment makes its line used, and only newlines in a token start a fresh
one: a chunk that has a problem leaves that alone. -/
def Chunk.next (tabWidth : Nat) (m : Mark) (chunk : Chunk) : Mark :=
  match chunk.meaning with
  | .ok token =>
    ({ m with fresh := m.fresh && token.isComment } : Mark).pastAll tabWidth chunk.text
  | .error _ => { m.pastAll tabWidth chunk.text with fresh := m.fresh }

/-- The lexemes of a text that starts at `m`, with an end of file after them. -/
def scanFrom (tabWidth : Nat) (m : Mark) : List Char → TokenStream
  | [] => ⟨[⟨.eof, .point m.offset, m.line, m.column, false⟩], []⟩
  | c :: cs =>
    if Text.isBlank c then scanFrom tabWidth (m.past tabWidth c) cs
    else
      let chunk := Chunk.read c cs
      let next := chunk.next tabWidth m
      chunk.emit m next.offset ++ scanFrom tabWidth next chunk.rest
  termination_by cs => cs.length
  decreasing_by
    · exact Nat.lt_succ_self _
    · exact Chunk.length_rest_lt c cs

/-- The lexemes of a source text. Problems do not stop the scan: the stretch
that has one gives no token. The last lexeme is the end of file. -/
def scan (tabWidth : Nat) (source : String) : TokenStream :=
  scanFrom tabWidth .start source.toList

end Lexeme

end Offside
