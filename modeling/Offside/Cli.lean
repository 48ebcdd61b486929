-- SUMMARY: The command line as a function of its arguments and of what it reads.
import Offside.Expr.Dump
import Offside.Expr.Print
import Offside.FileTree
import Offside.Source

/-! # The command line

The program checks one source text and shows one view of it: its tokens before
or after layout, its surface form, or its S-expressions. -/

namespace Offside

namespace Cli

/-- What to show of a text. -/
inductive Mode where
  | check
  | tokens
  | layout
  | ast
  | sexpr
  deriving DecidableEq, Repr

/-- The modes by the words that choose them. -/
def modes : List (String × Mode) :=
  [("check", .check), ("tokens", .tokens), ("layout", .layout), ("ast", .ast), ("sexpr", .sexpr)]

/-- What a run puts out, and its exit code. -/
structure Outcome where
  code : Nat
  stdout : String
  stderr : String
  deriving DecidableEq, Repr

/-- The name of the program. -/
def program : String := "silt-syntax"

/-- How to use the program. -/
def usage : String :=
  s!"Usage: {program} [" ++ "|".intercalate (modes.map (·.1)) ++ "] <source-file>\n" ++
    "\nOr pipe source to stdin:\n" ++ s!"  echo 'id x = x' | {program} sexpr -\n"

/-- What a run with the wrong arguments puts out. -/
def misuse : Outcome := ⟨1, "", usage⟩

/-- The mode and the input that the arguments choose. -/
def command? : List String → Option (Mode × String)
  | [input] => some (.check, input)
  | [word, input] => (modes.lookup word).map (·, input)
  | _ => none

/-- The view of a text. -/
def view (options : Options) (source : String) (parsed : Source.Parsed) : Mode → String
  | .check => ""
  | .tokens => Lexeme.listing (Lexeme.scan options.tabWidth source).lexemes
  | .layout => Lexeme.listing (Source.tokens options source).lexemes
  | .ast => parsed.file.print
  | .sexpr => parsed.file.dump

/-- Check the bytes that were read from `input`. -/
def check (mode : Mode) (input : String) (bytes : List UInt8) : Outcome :=
  let options : Options := {}
  match Source.decode bytes with
  | .error diagnostic => ⟨1, "", s!"{input}: {diagnostic.text}\n"⟩
  | .ok source =>
    let parsed := Source.parse options source
    let problems := parsed.diagnostics.map fun d => s!"{input}:{d.render source}\n"
    ⟨if parsed.hasErrors then 1 else 0, view options source parsed mode, String.join problems⟩

/-- Whether an input stands for the standard input. -/
def isStdin (input : String) : Bool := input = "-"

/-- What a run puts out when its input has been read, or could not be. -/
def answer (mode : Mode) (input : String) : Except String (List UInt8) → Outcome
  | .ok bytes => check mode input bytes
  | .error cause => ⟨1, "", s!"Error reading file '{input}': {cause}\n"⟩

/-- A run with the given arguments and standard input, in a file tree. -/
def run (args : List String) (stdin : List UInt8) (tree : FileTree) : Outcome :=
  match command? args with
  | none => misuse
  | some (mode, input) =>
    answer mode input
      (if isStdin input then .ok stdin else (tree.read input).mapError ReadError.message)

end Cli

end Offside
