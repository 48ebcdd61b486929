-- SUMMARY: Tokens at their place in a source text, and streams of them with their diagnostics.
import Offside.Diagnostic

/-! # Lexemes

A lexeme is a token together with the place where it stands. A `TokenStream` is
what every pass over the text returns: lexemes, always with the problems found
on the way. -/

namespace Offside

/-- A token at its place. -/
structure Lexeme where
  token : Token
  span : Span
  /-- The line of the first character, from 1. -/
  line : Nat
  /-- The column of the first character, from 1, with tabs going to the next
  tab stop. -/
  column : Nat
  /-- Whether this is the first token of its line, comments aside. Virtual
  tokens never are. -/
  lineStart : Bool
  deriving DecidableEq, Repr, Inhabited

namespace Lexeme

/-- A virtual token without width at the place of `tok`. -/
def marker (token : Token) (tok : Lexeme) : Lexeme :=
  ⟨token, .point tok.span.start, tok.line, tok.column, false⟩

/-- An end of file at `offset`, for streams that come without one. -/
def eofAt (offset : Nat) : Lexeme :=
  ⟨.eof, .point offset, 1, 1, false⟩

/-- A lexeme as `line:column token`. -/
def text (tok : Lexeme) : String :=
  s!"{tok.line}:{tok.column} {tok.token.text}"

/-- A listing with one line for each lexeme. -/
def listing (toks : List Lexeme) : String :=
  String.join (toks.map fun tok => tok.text ++ "\n")

end Lexeme

/-- Lexemes and the problems found in making them. -/
structure TokenStream where
  lexemes : List Lexeme
  diagnostics : List Diagnostic
  deriving DecidableEq, Repr

namespace TokenStream

/-- Nothing read, nothing found. -/
def empty : TokenStream := ⟨[], []⟩

/-- One stream after another. -/
def append (a b : TokenStream) : TokenStream :=
  ⟨a.lexemes ++ b.lexemes, a.diagnostics ++ b.diagnostics⟩

instance : Append TokenStream := ⟨append⟩

@[simp] theorem lexemes_append (a b : TokenStream) :
    (a ++ b).lexemes = a.lexemes ++ b.lexemes := rfl

@[simp] theorem diagnostics_append (a b : TokenStream) :
    (a ++ b).diagnostics = a.diagnostics ++ b.diagnostics := rfl

/-- The lexemes of a stream without problems, or the first problem. -/
def strict (s : TokenStream) : Except Diagnostic (List Lexeme) :=
  match s.diagnostics with
  | [] => .ok s.lexemes
  | d :: _ => .error d

end TokenStream

end Offside
