/-
What the command line answers, given its arguments and the files.

* `CommandLine.run` — exit code, output and diagnostics.
-/
import ScannerlessLR.CommandLine.Arguments
import ScannerlessLR.Forest.Render
import ScannerlessLR.Parser.Parse
import ScannerlessLR.Table.Decode

namespace ScannerlessLR

/-- Why a file cannot be read as text. -/
inductive ReadError where
  | missing
  | invalidText
  | other (message : String)
  deriving DecidableEq, Repr

/-- The wording of a read error. -/
def ReadError.message : ReadError → String
  | .missing => "No such file or directory (os error 2)"
  | .invalidText => "stream did not contain valid UTF-8"
  | .other message => message

namespace CommandLine

/-- A failure: what was attempted, and why it did not succeed. -/
structure Fault where
  context : String
  cause : String
  deriving DecidableEq, Repr

/-- The wording of a failure. -/
def Fault.message (f : Fault) : String :=
  s!"Error: {f.context}\n\nCaused by:\n    {f.cause}\n"

/-- What the command line answers. -/
structure Answer where
  code : UInt32
  output : String := ""
  diagnostics : String := ""
  deriving DecidableEq, Repr

/-- The line that names the program and its version. -/
def versionText : String :=
  "sglr 0.1.0\n"

/-- The description of the command line. -/
def helpText : String :=
  "\n".intercalate [
    "Parse a file with a precompiled SDF parse table",
    "",
    "Usage: sglr [OPTIONS] <TABLE> <INPUT>",
    "",
    "Arguments:",
    "  <TABLE>  Parse table in textual term format",
    "  <INPUT>  File to parse",
    "",
    "Options:",
    "      --no-dedup   Allow the same reduction to be applied more than once per path",
    "      --eof <EOF>  Code point marking the end of input [default: 256]",
    "  -h, --help       Print help",
    "  -V, --version    Print version",
    ""]

/-- How to get at the bytes of a file. -/
abbrev Files := String → Except ReadError ByteArray

/-- The text of a file. -/
def readText (files : Files) (path : String) : Except ReadError String := do
  match String.fromUTF8? (← files path) with
  | some text => return text
  | none => throw .invalidText

/-- Parses one file with the table in another, and shows the tree. -/
def parseFiles (files : Files) (tablePath inputPath : String) (config : Config) :
    Except Fault String := do
  let attempt {ε α : Type} (what : String) (message : ε → String) (r : Except ε α) :
      Except Fault α := r.mapError fun e => ⟨what, message e⟩
  let text ← attempt s!"failed to read table {tablePath}" ReadError.message
    (readText files tablePath)
  let table ← attempt s!"failed to load table {tablePath}" TableError.message (Table.parse text)
  let input ← attempt s!"failed to read input {inputPath}" ReadError.message
    (readText files inputPath)
  let p ← attempt s!"failed to parse {inputPath}" ParseError.message
    (parse table input config).result
  match p.tree? with
  | some tree => return String.ofList (p.forest.render table tree) ++ "\n"
  | none => return "accepted empty derivation\n"

/-- What the command line answers to its arguments.  Faulty arguments are told from other failures
by the exit code. -/
def run (files : Files) (arguments : List String) : Answer :=
  match Invocation.ofArguments arguments with
  | .error e => { code := 2, diagnostics := s!"error: {e}\n" }
  | .ok .help => { code := 0, output := helpText }
  | .ok .version => { code := 0, output := versionText }
  | .ok (.parse tablePath inputPath config) =>
    match parseFiles files tablePath inputPath config with
    | .ok output => { code := 0, output }
    | .error fault => { code := 1, diagnostics := fault.message }

end CommandLine

end ScannerlessLR
