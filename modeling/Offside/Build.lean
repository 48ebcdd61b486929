-- SUMMARY: Parsing many units, found by patterns or given, with a limit on errors.
import Offside.Expr.Dump
import Offside.Glob.Search
import Offside.Source

/-! # Builds

A build parses a list of units and keeps their results in order. Once as many
errors have been seen as the limit allows, the units after that are dropped. -/

namespace Offside

namespace Build

/-- How to build. -/
structure Config where
  /-- The extension that found files have to carry. -/
  extension : String := "silt"
  /-- Drop the units after this many errors. -/
  errorLimit : Option Nat := none
  parse : Options := {}
  deriving DecidableEq, Repr

/-- Why a unit, or a pattern for units, could not be used at all. -/
inductive Error where
  | invalidGlob (pattern : String) (fault : Glob.Fault)
  | unreadable (path : String) (cause : ReadError)
  | undecodable (path : String) (diagnostic : Diagnostic)
  deriving DecidableEq, Repr

namespace Error

/-- The code of an error. -/
def code : Error → String
  | invalidGlob .. => "InvalidGlob"
  | unreadable .. => "FileReadError"
  | undecodable _ diagnostic => "InvalidEncoding." ++ diagnostic.code

/-- The wording of an error. -/
def message : Error → String
  | invalidGlob pattern fault => s!"Invalid glob pattern '{pattern}': {fault.message}"
  | unreadable path cause => s!"Failed to read file '{path}': {cause.message}"
  | undecodable path diagnostic => s!"Cannot decode '{path}': {diagnostic.text}"

end Error

/-- A parsed unit. -/
structure ParsedUnit where
  path : String
  parsed : Source.Parsed

/-- The result of a build. -/
structure Result where
  /-- The parsed units, in the order they were given. -/
  units : List ParsedUnit
  errors : List Error
  /-- How many units the error limit dropped. -/
  skipped : Nat

/-- The number of problems of some units together. -/
def problemCount (units : List ParsedUnit) : Nat :=
  (units.flatMap (·.parsed.diagnostics)).length

/-- The problems of all units and the errors of the build. -/
def Result.errorCount (r : Result) : Nat :=
  r.errors.length + problemCount r.units

/-- Whether there is any problem or error. -/
def Result.hasErrors (r : Result) : Bool := 0 < r.errorCount

/-- A unit to be parsed. -/
structure Input where
  path : String
  bytes : List UInt8

/-- Parse units when `seen` errors have been seen before them. The limit is looked at
before each unit, also behind the first one that is dropped. -/
def parseFrom (config : Config) (seen : Nat) : List Input → Result
  | [] => ⟨[], [], 0⟩
  | input :: inputs =>
    if config.errorLimit.any (· ≤ seen) then
      let rest := parseFrom config seen inputs
      { rest with skipped := rest.skipped + 1 }
    else
      match Source.parseUtf8 config.parse input.bytes with
      | .ok parsed =>
        let rest := parseFrom config (seen + parsed.diagnostics.length) inputs
        { rest with units := ⟨input.path, parsed⟩ :: rest.units }
      | .error diagnostic =>
        let rest := parseFrom config (seen + 1) inputs
        { rest with errors := .undecodable input.path diagnostic :: rest.errors }

/-- Parse units after the errors `earlier`. -/
def ofInputs (config : Config) (inputs : List Input) (earlier : List Error) : Result :=
  let r := parseFrom config earlier.length inputs
  { r with errors := earlier ++ r.errors }

/-- Parse named texts. -/
def ofTexts (config : Config) (sources : List (String × String)) : Result :=
  ofInputs config (sources.map fun (name, source) => ⟨name, source.toUTF8.toList⟩) []

/-- The paths that patterns name, each once and in order, and the patterns that
mean nothing. Only files with the right extension count. -/
def findPaths (config : Config) (tree : FileTree) (patterns : List String) :
    List String × List Error :=
  let found := patterns.map fun pattern => (pattern, Glob.Pattern.ofString pattern)
  let paths := found.flatMap fun
    | (_, .ok pattern) => Glob.search tree pattern
    | _ => []
  let errors := found.filterMap fun
    | (pattern, .error fault) => some (.invalidGlob pattern fault)
    | _ => none
  (Path.sortDedup (paths.filter (Path.extension? · = some config.extension)), errors)

/-- Read files. -/
def readAll (tree : FileTree) (paths : List String) : List Input × List Error :=
  let read := paths.map fun path => (path, tree.read path)
  let inputs := read.filterMap fun
    | (path, .ok bytes) => some ⟨path, bytes⟩
    | _ => none
  let errors := read.filterMap fun
    | (path, .error cause) => some (.unreadable path cause)
    | _ => none
  (inputs, errors)

/-- Parse the files of a tree that some patterns name. -/
def run (config : Config) (tree : FileTree) (patterns : List String) : Result :=
  let (paths, globErrors) := findPaths config tree patterns
  let (inputs, readErrors) := readAll tree paths
  ofInputs config inputs (globErrors ++ readErrors)

end Build

end Offside
