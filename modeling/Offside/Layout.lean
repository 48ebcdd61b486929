-- SUMMARY: The offside rule: block structure made explicit with virtual tokens.
import Offside.Lexeme

/-! # Layout

The indentation of a program is its block structure. `Layout.resolve` makes
that structure explicit:

* The file body and every `where` or `let` open a block at the column of the
  next token. If that token is not to the right of the enclosing block, the
  block is empty. If it is a brace, the braces delimit the block and
  indentation does not matter inside.
* A line at the column of the innermost block starts a new item. A line to the
  right goes on with the current item. A line to the left closes the block, and
  the next one is asked. Landing strictly between two blocks is an error.
* `in` closes the blocks up to the innermost `let`.
* Indentation does not matter between brackets, and a closing bracket closes
  every block that was opened inside.

Comments are dropped, and the last lexeme is the end of file. -/

namespace Offside

namespace Layout

/-- What a block holds. -/
inductive BlockKind where
  /-- The definitions of a `let`, which `in` ends. -/
  | bindings
  /-- The file body, or what follows `where`. -/
  | body
  deriving DecidableEq, Repr

/-- What is open. -/
inductive Frame where
  /-- A block delimited by indentation, with the column of its items. -/
  | implicit (kind : BlockKind) (column : Nat)
  /-- A block delimited by braces, with the span of the opening one. -/
  | braced (kind : BlockKind) (opening : Span)
  /-- A parenthesis, or a brace that opens no block. -/
  | bracket
  deriving DecidableEq, Repr

/-- What is open, innermost first, and the block that the next token opens. -/
structure State where
  stack : List Frame
  pending : Option BlockKind
  deriving DecidableEq, Repr

/-- Before the first token, which opens the file body. -/
def State.initial : State := ⟨[], some .body⟩

/-- The block that a token announces. -/
def announced : Token → Option BlockKind
  | .kwLet => some .bindings
  | .kwWhere => some .body
  | _ => none

/-- The column that the first token of a new block has to exceed: that of the
innermost block, and none between brackets. -/
def margin : List Frame → Nat
  | .implicit _ column :: _ => column
  | _ => 0

/-- Whether a block whose first token is `tok` has any items. -/
def hasItems (stack : List Frame) (tok : Lexeme) : Bool :=
  margin stack < tok.column || stack.isEmpty

/-- `count` block ends at the place of `tok`. -/
def ends (count : Nat) (tok : Lexeme) : List Lexeme :=
  List.replicate count (.marker .blockEnd tok)

/-- How many blocks end with the innermost `let`, and what is left open. A
bracket or another block in braces hides a `let` outside it. -/
def closeLet? : List Frame → Option (Nat × List Frame)
  | .implicit .bindings _ :: rest | .braced .bindings _ :: rest => some (1, rest)
  | .implicit .body _ :: rest => (closeLet? rest).map fun (count, left) => (count + 1, left)
  | _ => none

/-- How many blocks stand inside the innermost bracket or brace, and what is
open from that one outwards. -/
def closeInside? : List Frame → Option (Nat × List Frame)
  | [] => none
  | .implicit _ _ :: rest => (closeInside? rest).map fun (count, left) => (count + 1, left)
  | stack => some (0, stack)

/-- Compare the column of `tok`, the first token of a line, with the open
blocks. `inner` is the column of the block that was closed last. -/
def dedent (tok : Lexeme) : (inner : Option Nat) → List Frame → TokenStream × List Frame
  | inner, .implicit kind column :: rest =>
    let sep := Lexeme.marker .blockSep tok
    let stack := Frame.implicit kind column :: rest
    if tok.column = column then (⟨[sep], []⟩, stack)
    else if column < tok.column then
      match inner with
      | some inner => (⟨[sep], [(Problem.betweenBlocks tok.column column inner).at tok.span]⟩, stack)
      | none => (.empty, stack)
    else if rest.isEmpty then
      (⟨[sep], [(Problem.leftOfFile tok.column column).at tok.span]⟩, stack)
    else
      let (closed, left) := dedent tok (some column) rest
      (⟨ends 1 tok, []⟩ ++ closed, left)
  | _, stack => (.empty, stack)

/-- Put out a token other than `in` and the closing brackets. -/
def putPlain (tok : Lexeme) (stack : List Frame) : TokenStream × State :=
  let stack := match tok.token with
    | .lparen | .lbrace => .bracket :: stack
    | _ => stack
  (⟨[tok], []⟩, ⟨stack, announced tok.token⟩)

/-- Put out a closing bracket. A brace that closes a block becomes its end. -/
def putCloser (tok : Lexeme) (stack : List Frame) : TokenStream × State :=
  match closeInside? stack with
  | some (count, .braced kind opening :: left) =>
    if tok.token = .rbrace then
      let close := { tok with token := .blockEnd, lineStart := false }
      (⟨ends count tok ++ [close], []⟩, ⟨left, none⟩)
    else (⟨ends count tok ++ [tok], []⟩, ⟨.braced kind opening :: left, none⟩)
  | some (count, _ :: left) => (⟨ends count tok ++ [tok], []⟩, ⟨left, none⟩)
  | _ => (⟨[tok], []⟩, ⟨stack, none⟩)

/-- Put out a token when the block it may have opened is on the stack. `opened`
says whether there was one: its first token is not compared with it. -/
def put (tok : Lexeme) (opened : Bool) (stack : List Frame) : TokenStream × State :=
  match tok.token with
  | .kwIn =>
    let (count, left) := (closeLet? stack).getD (0, stack)
    (⟨ends count tok ++ [tok], []⟩, ⟨left, none⟩)
  | .rparen | .rbrace => putCloser tok stack
  | _ =>
    if tok.lineStart && !opened then
      let (moved, left) := dedent tok none stack
      let (placed, next) := putPlain tok left
      (moved ++ placed, next)
    else putPlain tok stack

/-- What one token puts out, and what is open after it. -/
def step (state : State) (tok : Lexeme) : TokenStream × State :=
  match state.pending with
  | none => put tok false state.stack
  | some kind =>
    if tok.token = .lbrace then
      let start := { tok with token := .blockStart, lineStart := false }
      (⟨[start], []⟩, ⟨.braced kind tok.span :: state.stack, none⟩)
    else
      let start := Lexeme.marker .blockStart tok
      if hasItems state.stack tok then
        let (placed, next) := put tok true (.implicit kind tok.column :: state.stack)
        (⟨[start], []⟩ ++ placed, next)
      else
        let (placed, next) := put tok false state.stack
        (⟨start :: ends 1 tok, []⟩ ++ placed, next)

/-- What a list of tokens puts out, and what is open after it. -/
def steps : State → List Lexeme → TokenStream × State
  | state, [] => (.empty, state)
  | state, tok :: toks =>
    let (first, next) := step state tok
    let (others, last) := steps next toks
    (first ++ others, last)

/-- Close what is open at the end of file. -/
def closeAll (eof : Lexeme) : List Frame → TokenStream
  | [] => .empty
  | .implicit _ _ :: rest => ⟨ends 1 eof, []⟩ ++ closeAll eof rest
  | .braced _ opening :: rest =>
    ⟨ends 1 eof, [Problem.unclosedBlock.at opening]⟩ ++ closeAll eof rest
  | .bracket :: rest => closeAll eof rest

/-- What the end of file puts out. A block that was announced last is empty. -/
def finish (state : State) (eof : Lexeme) : TokenStream :=
  let announcedLast := match state.pending with
    | some _ => .marker .blockStart eof :: ends 1 eof
    | none => []
  ⟨announcedLast, []⟩ ++ closeAll eof state.stack ++ ⟨[eof], []⟩

/-- Make the block structure of a program explicit. Input after the first end
of file is ignored, and one is added if there is none. -/
def resolve (toks : List Lexeme) : TokenStream :=
  let program := toks.filter (!·.token.isComment)
  let (out, state) := steps .initial (program.takeWhile (·.token ≠ .eof))
  let eof := match program.find? (·.token = .eof) with
    | some eof => eof
    | none => .eofAt ((out.lexemes.getLast?.map (·.span.stop)).getD 0)
  out ++ finish state eof

end Layout

end Offside
