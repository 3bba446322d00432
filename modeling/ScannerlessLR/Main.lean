/-
The program: reads the files that the arguments name, and prints the answer.
-/
import ScannerlessLR.CommandLine.Run

namespace ScannerlessLR

/-- The bytes of a file. -/
def readBytes (path : String) : IO (Except ReadError ByteArray) := do
  try
    return .ok (← IO.FS.readBinFile path)
  catch
    | .noFileOrDirectory .. => return .error .missing
    | e => return .error (.other (toString e))

/-- The files that an invocation needs. -/
def readFiles (arguments : List String) : IO CommandLine.Files := do
  match Invocation.ofArguments arguments with
  | .ok (.parse tablePath inputPath _) =>
    let table ← readBytes tablePath
    let input ← readBytes inputPath
    return fun path => if path = tablePath then table else input
  | _ => return fun _ => .error .missing

end ScannerlessLR

/-- Runs the command line. -/
def main (arguments : List String) : IO UInt32 := do
  let files ← ScannerlessLR.readFiles arguments
  let answer := ScannerlessLR.CommandLine.run files arguments
  IO.print answer.output
  IO.eprint answer.diagnostics
  return answer.code
