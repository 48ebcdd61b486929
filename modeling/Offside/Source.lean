-- SUMMARY: From a source text to its tokens, its declarations or its expression.
import Offside.Fixity.Resolve
import Offside.Layout
import Offside.Lexeme.Column
import Offside.Parser.Decl
import Offside.Text.Utf8

/-! # Source texts

A text is scanned, its layout is resolved, its declarations are parsed, and
their operators are resolved. No problem of the text stops this: what can be
understood becomes a tree, and all problems are reported with it. Only a column
of more than 32 bits does: `parse?` is the reading that counts columns so. -/

namespace Offside

namespace Source

/-! ## Tokens -/

/-- What a scan gives, with its layout resolved. The problems of the scan come
before those of the layout. -/
def withLayout (scanned : TokenStream) : TokenStream :=
  let laidOut := Layout.resolve scanned.lexemes
  ⟨laidOut.lexemes, scanned.diagnostics ++ laidOut.diagnostics⟩

/-- The lexemes of a text with its layout resolved. -/
def tokens (options : Options) (source : String) : TokenStream :=
  withLayout (Lexeme.scan options.tabWidth source)

/-- The lexemes of a text with its layout resolved, if its columns fit. -/
def tokens? (options : Options) (source : String) : Option TokenStream :=
  (Lexeme.scanFit? options.tabWidth source).map withLayout

/-- The lexemes of a text that has no lexical problem. -/
def scanStrict (source : String) : Except Diagnostic (List Lexeme) :=
  (Lexeme.scan ({} : Options).tabWidth source).strict

/-- The lexemes, with layout resolved, of a text that has neither a lexical
nor a layout problem. -/
def tokensStrict (source : String) : Except Diagnostic (List Lexeme) := do
  (Layout.resolve (← scanStrict source)).strict

/-! ## Files -/

/-- What is known of a text: the tree of what could be understood, and all
problems in the order of their places. -/
structure Parsed where
  file : File
  diagnostics : List Diagnostic

/-- Whether a text has any problem. -/
def Parsed.hasErrors (parsed : Parsed) : Bool := !parsed.diagnostics.isEmpty

/-- The span of a whole text. -/
def span (source : String) : Span := ⟨0, source.utf8ByteSize⟩

/-- The declarations of a stream with operators unresolved, and the problems
found up to there. -/
def declarationsIn (options : Options) (stream : TokenStream) :
    List (Decl Concrete.Expr) × List Diagnostic :=
  let (decls, ds) := Parser.file options (.ofLexemes stream.lexemes)
  (decls, stream.diagnostics ++ ds)

/-- The declarations of a text with operators unresolved, and the problems
found up to there. -/
def declarations (options : Options) (source : String) :
    List (Decl Concrete.Expr) × List Diagnostic :=
  declarationsIn options (tokens options source)

/-- Parse the lexemes of a text as a file. -/
def parseTokens (options : Options) (source : String) (stream : TokenStream) : Parsed :=
  let (concrete, ds₁) := declarationsIn options stream
  let (decls, ds₂) := Fixity.resolveFile options.maxNesting concrete
  ⟨⟨span source, decls⟩, Diagnostic.sort (ds₁ ++ ds₂)⟩

/-- Parse a text as a file. -/
def parse (options : Options) (source : String) : Parsed :=
  parseTokens options source (tokens options source)

/-- Parse a text as a file, if its columns fit. -/
def parse? (options : Options) (source : String) : Option Parsed :=
  (tokens? options source).map (parseTokens options source)

/-- The text that bytes are the UTF-8 form of. Bytes that are none cannot be
parsed at all. -/
def decode (bytes : List UInt8) : Except Diagnostic String :=
  match Text.Utf8.decode bytes with
  | .ok cs => .ok (String.ofList cs)
  | .error (.invalid offset length) => .error (Problem.invalidUtf8.at ⟨offset, offset + length⟩)
  | .error (.truncated offset) => .error (Problem.truncatedUtf8.at ⟨offset, bytes.length⟩)

/-- Parse bytes as a file. -/
def parseUtf8 (options : Options) (bytes : List UInt8) : Except Diagnostic Parsed :=
  (decode bytes).map (parse options)

/-! ## Expressions -/

/-- Parse a text as one expression, with the fixities that the declarations in
`context` give. -/
def parseExpression (source context : String) : Except (List Diagnostic) Expr :=
  let options : Options := {}
  let (decls, ds₁) := declarations options context
  let stream := tokens options source
  let (r, _) := Parser.expressions options options.maxNesting (.ofLexemes stream.lexemes)
  let (exprs, ds₂) := r.settle
  let ds := ds₁ ++ stream.diagnostics ++ ds₂
  match ds, exprs.getD [] with
  | [], [e] =>
    match Fixity.resolveIn options.maxNesting decls e with
    | (some e, []) => .ok e
    | (_, ds) => .error (Diagnostic.sort ds)
  | [], exprs => .error [(Problem.notOneExpression exprs.length).at (span source)]
  | ds, _ => .error ds

end Source

end Offside
