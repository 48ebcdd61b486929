-- SUMMARY: The program.
import Offside.Cli

/-! # Main -/

namespace Offside.Main

/-- Read a stream to its end. -/
partial def readAll (stream : IO.FS.Stream) (read : ByteArray) : IO ByteArray := do
  let chunk ← stream.read 65536
  if chunk.isEmpty then return read else readAll stream (read ++ chunk)

/-- Why a file cannot be read. A directory opens like a file, and only reading
it fails, with error 21. -/
def cause : IO.Error → String
  | .noFileOrDirectory .. => ReadError.notFound.message
  | .inappropriateType _ 21 _ => ReadError.isADirectory.message
  | .inappropriateType .. => ReadError.notADirectory.message
  | e => toString e

/-- The bytes of an input, or why it cannot be read. -/
def readInput (input : String) : IO (Except String (List UInt8)) := do
  if Cli.isStdin input then
    return .ok (← readAll (← IO.getStdin) .empty).toList
  else
    try return .ok (← IO.FS.readBinFile input).toList
    catch e => return .error (cause e)

end Offside.Main

/-- Check the source text that the arguments name. -/
def main (args : List String) : IO UInt32 := do
  let outcome ← match Offside.Cli.command? args with
    | none => pure Offside.Cli.misuse
    | some (mode, input) => Offside.Cli.answer mode input <$> Offside.Main.readInput input
  IO.print outcome.stdout
  IO.eprint outcome.stderr
  return outcome.code.toUInt32
