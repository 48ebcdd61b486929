-- SUMMARY: A reading position in a token stream, and the scans that look ahead from it.
import Offside.Lexeme

/-! # Cursors

A cursor stands before a token of a stream whose layout is resolved. It never
moves past an end of file. -/

namespace Offside

/-- A reading position. -/
structure Cursor where
  /-- The tokens from the current one on, without the final end of file. -/
  ahead : List Lexeme
  /-- The final end of file. -/
  eof : Lexeme
  /-- Where the last token that has text and has been read ends. -/
  lastEnd : Nat
  deriving DecidableEq, Repr

/-- Opens a block or a bracket. -/
def Token.isOpener : Token → Bool
  | .blockStart | .lparen | .lbrace => true
  | _ => false

/-- Closes a block or a bracket. -/
def Token.isCloser : Token → Bool
  | .blockEnd | .rparen | .rbrace => true
  | _ => false

/-- Separates two items of a block. -/
def Token.isSeparator : Token → Bool
  | .blockSep | .semicolon => true
  | _ => false

namespace Cursor

/-- The start of a stream. An end of file is added if it has none at the end. -/
def ofLexemes (toks : List Lexeme) : Cursor :=
  match toks.getLast? with
  | none => ⟨[], .eofAt 0, 0⟩
  | some last =>
    if last.token = .eof then ⟨toks.dropLast, last, 0⟩ else ⟨toks, .eofAt last.span.stop, 0⟩

theorem ofLexemes_concat (toks : List Lexeme) {eof : Lexeme} (heof : eof.token = .eof) :
    ofLexemes (toks ++ [eof]) = ⟨toks, eof, 0⟩ := by
  simp [ofLexemes, heof]

/-- The token `n` places on; the final end of file repeats for ever. -/
def peekAt (c : Cursor) (n : Nat) : Lexeme := c.ahead[n]?.getD c.eof

/-- The current token with its place. -/
def current (c : Cursor) : Lexeme := c.peekAt 0

/-- The current token. -/
def token (c : Cursor) : Token := c.current.token

/-- Whether the current token is `t`. -/
def isAt (c : Cursor) (t : Token) : Bool := c.token = t

/-- Where text has been read up to when `toks` have been read after `lastEnd`.
Tokens without text do not count. -/
def readEnd (lastEnd : Nat) (toks : List Lexeme) : Nat :=
  toks.foldl (fun e tok => if tok.span.isEmpty then e else tok.span.stop) lastEnd

/-- Read `n` tokens, none of which is an end of file. -/
def skip (c : Cursor) (n : Nat) : Cursor :=
  { c with ahead := c.ahead.drop n, lastEnd := readEnd c.lastEnd (c.ahead.take n) }

/-- Read the current token, unless it is an end of file. -/
def advance (c : Cursor) : Cursor :=
  if c.isAt .eof then { c with lastEnd := readEnd c.lastEnd [c.current] } else c.skip 1

/-- Read the current token if it is `t`. -/
def eat? (c : Cursor) (t : Token) : Option (Lexeme × Cursor) :=
  if c.isAt t then some (c.current, c.advance) else none

/-- The problem that the current token is not what was expected. -/
def unexpected (c : Cursor) (expected : String) : Diagnostic :=
  (Problem.unexpected expected c.token).at c.current.span

/-- Read the current token, which has to be `t`. `context` says what `t` is
there for. -/
def expect (c : Cursor) (t : Token) (context : String) : Except Diagnostic (Lexeme × Cursor) :=
  match c.eat? t with
  | some read => .ok read
  | none => .error (c.unexpected s!"`{t.text}` {context}")

/-- The span from `start` to the end of the text read so far. -/
def spanFrom (c : Cursor) (start : Nat) : Span := ⟨start, max c.lastEnd start⟩

/-- Read past the separators before the next item. -/
def skipSeparators (c : Cursor) : Cursor :=
  c.skip (c.ahead.takeWhile (·.token.isSeparator)).length

/-- The number of tokens up to the end of the current item, when `blocks` and
`brackets` are open in it. The item ends before a separator or block end that
is not inside a block opened in it. A semicolon between brackets does not
end it. -/
def itemLength : (blocks brackets : Nat) → List Lexeme → Nat
  | _, _, [] => 0
  | blocks, brackets, tok :: toks =>
    match tok.token with
    | .eof => 0
    | .blockSep => if blocks = 0 then 0 else itemLength blocks brackets toks + 1
    | .blockEnd => if blocks = 0 then 0 else itemLength (blocks - 1) brackets toks + 1
    | .semicolon =>
      if blocks = 0 ∧ brackets = 0 then 0 else itemLength blocks brackets toks + 1
    | .blockStart => itemLength (blocks + 1) brackets toks + 1
    | .lparen | .lbrace => itemLength blocks (brackets + 1) toks + 1
    | .rparen | .rbrace => itemLength blocks (brackets - 1) toks + 1
    | _ => itemLength blocks brackets toks + 1

/-- Read to the end of the current item. -/
def skipItem (c : Cursor) : Cursor := c.skip (itemLength 0 0 c.ahead)

/-- The first of the `wanted` tokens in an item, brackets and blocks in it
aside, when `depth` of these are open. -/
def findInItem (wanted : List Token) : (depth : Nat) → List Lexeme → Option Token
  | _, [] => none
  | depth, tok :: toks =>
    let t := tok.token
    if t = .eof then none
    else if depth = 0 ∧ (t.isSeparator ∨ t.isCloser) then none
    else if t.isOpener then findInItem wanted (depth + 1) toks
    else if t.isCloser then findInItem wanted (depth - 1) toks
    else if depth = 0 ∧ t ∈ wanted then some t
    else findInItem wanted depth toks

/-- The first of the `wanted` tokens in the rest of the current item, brackets
and blocks in it aside. -/
def firstInItem? (c : Cursor) (wanted : List Token) : Option Token :=
  findInItem wanted 0 c.ahead

/-- Whether a colon stands directly inside the outermost of the brackets at the
start of the tokens, `depth` of which are open. -/
def colonInside : (depth : Nat) → List Lexeme → Bool
  | _, [] => false
  | depth, tok :: toks =>
    let t := tok.token
    if t = .eof then false
    else if t.isOpener then colonInside (depth + 1) toks
    else if t.isCloser then depth > 1 && colonInside (depth - 1) toks
    else (t = .colon && depth = 1) || colonInside depth toks

/-- Whether the bracket at the cursor is a typed parameter, and not a
parenthesis around an expression. -/
def atTypedParam (c : Cursor) : Bool := colonInside 0 c.ahead

end Cursor

end Offside
