-- SUMMARY: Tokens of the language, their written form, and the classification of words.
import Offside.Fixity
import Offside.Text.Blank

/-! # Tokens

A token is a reserved word or symbol, an identifier, an integer, a comment, or
one of the three virtual tokens that mark the blocks of a program once its
layout is resolved. `Token.text` is the written form of a token, and
`Token.ofWord` is the class of a word. -/

namespace Offside

/-- The tokens of the language. -/
inductive Token where
  | kwData
  | kwRecord
  | kwModule
  | kwWhere
  | kwImport
  | kwOpen
  /-- The keyword of a fixity declaration. -/
  | kwFixity (assoc : Associativity)
  | kwLet
  | kwIn
  | kwForall
  | kwType
  | kwWith
  | kwField
  | kwConstructor
  /-- Any word that is neither reserved nor a number; operators included. -/
  | ident (name : String)
  /-- An integer literal of at most 64 bits. -/
  | integer (value : UInt64)
  /-- Opens a block. -/
  | blockStart
  /-- Separates two items of a block. -/
  | blockSep
  /-- Closes a block. -/
  | blockEnd
  | lparen
  | rparen
  | lbrace
  | rbrace
  | unit
  | arrow
  | backslash
  | underscore
  | colon
  | equals
  | pipe
  | semicolon
  | dot
  /-- A comment to the end of its line, without the leading dashes. -/
  | lineComment (body : String)
  /-- A bracketed comment, without its brackets. -/
  | blockComment (body : String)
  | eof
  deriving DecidableEq, Repr, Inhabited

namespace Token

/-- The written form of a token. Virtual tokens, which nobody writes, show as
braces and semicolons marked `layout`. -/
def text : Token → String
  | kwData => "data"
  | kwRecord => "record"
  | kwModule => "module"
  | kwWhere => "where"
  | kwImport => "import"
  | kwOpen => "open"
  | kwFixity assoc => assoc.keyword
  | kwLet => "let"
  | kwIn => "in"
  | kwForall => "forall"
  | kwType => "Type"
  | kwWith => "with"
  | kwField => "field"
  | kwConstructor => "constructor"
  | ident name => name
  | integer value => toString value.toNat
  | blockStart => "\x7blayout"
  | blockSep => ";layout"
  | blockEnd => "layout\x7d"
  | lparen => "("
  | rparen => ")"
  | lbrace => "\x7b"
  | rbrace => "\x7d"
  | unit => "()"
  | arrow => "->"
  | backslash => "\\"
  | underscore => "_"
  | colon => ":"
  | equals => "="
  | pipe => "|"
  | semicolon => ";"
  | dot => "."
  | lineComment body => "--" ++ body
  | blockComment body => "\x7b-" ++ body ++ "-\x7d"
  | eof => "end of file"

/-- Comments carry no meaning and are dropped when the layout is resolved. -/
def isComment : Token → Bool
  | lineComment _ | blockComment _ => true
  | _ => false

/-- The virtual tokens, which layout resolution inserts. -/
def isVirtual : Token → Bool
  | blockStart | blockSep | blockEnd => true
  | _ => false

/-- Whether a token is an identifier. -/
def isIdent : Token → Bool
  | ident _ => true
  | _ => false

/-! ## Words -/

/-- The characters that end a word although they are not blank. -/
def isDelimiter (c : Char) : Bool :=
  ['(', ')', '\x7b', '\x7d', ';', '.', '\\'].contains c

/-- A word is a maximal run of characters that are neither blank nor
delimiters. -/
def isWordChar (c : Char) : Bool :=
  !Text.isBlank c && !isDelimiter c

/-- The words with a meaning of their own. The Greek lambda, the arrow and the
quantifier are second spellings. -/
def reserved : List (String × Token) :=
  [("data", kwData), ("record", kwRecord), ("module", kwModule), ("where", kwWhere),
    ("import", kwImport), ("open", kwOpen), ("infix", kwFixity .none),
    ("infixl", kwFixity .left), ("infixr", kwFixity .right), ("let", kwLet), ("in", kwIn),
    ("forall", kwForall), ("∀", kwForall), ("Type", kwType), ("with", kwWith),
    ("field", kwField), ("constructor", kwConstructor), ("->", arrow), ("→", arrow),
    ("λ", backslash), ("_", underscore), (":", colon), ("=", equals), ("|", pipe)]

/-- The number that a sequence of decimal digits denotes. -/
def decimalValue (digits : List Char) : Nat :=
  digits.foldl (fun value d => 10 * value + (d.toNat - '0'.toNat)) 0

/-- The class of a word that is followed by the character `next`, or by the end
of the text. A reserved word of more than one character loses its meaning if a
blank outside ASCII follows it directly. The answer is `none` for a number
that does not fit in 64 bits. -/
def ofWord (word : List Char) (next : Option Char) : Option Token :=
  let hidden := 2 ≤ word.length && next.any Text.isWideBlank
  match if hidden then none else reserved.lookup (String.ofList word) with
  | some token => some token
  | none =>
    if word.all Char.isDigit then
      let value := decimalValue word
      if value < UInt64.size then some (integer (.ofNat value)) else none
    else some (ident (String.ofList word))

end Token

end Offside
