import Bronti.CommandLine.Program

/-!
The program `bronti`.
-/
namespace Bronti.CommandLine

/-- The octets of a file, or why there are none. -/
def readFile (path : String) : IO (Except ReadError (List UInt8)) := do
  try
    let bytes ← IO.FS.readBinFile path
    return .ok bytes.toList
  catch e =>
    match e with
    | .noFileOrDirectory .. => return .error (.missing path)
    | .inappropriateType .. => return .error (.directory path)
    | .invalidArgument .. => return .error (.notDirectory path)
    | e => return .error (.other (toString e))

/-- The octets of a stream up to its end. -/
partial def readStream (s : IO.FS.Stream) (bytes : ByteArray) : IO ByteArray := do
  let more ← s.read 65536
  if more.isEmpty then return bytes else readStream s (bytes ++ more)

end Bronti.CommandLine

open Bronti.CommandLine in
/-- Reads the source that the arguments name and writes what becomes of it. -/
def main (arguments : List String) : IO UInt32 := do
  let finished ← match (request arguments).finished? with
    | .error f => pure f
    | .ok o => match o.origin with
      | .standardInput => do
        let bytes ← readStream (← IO.getStdin) .empty
        pure (executeBytes o o.origin.name (.ok bytes.toList))
      | .file path => do
        let source ← readFile path
        pure (executeBytes o o.origin.name source)
  (← IO.getStdout).putStr finished.out
  (← IO.getStdout).flush
  (← IO.getStderr).putStr finished.err
  return finished.status.toUInt32
