/-
The arguments of the command line: a table, an input, and options in any order.

Arguments are looked at one by one, so the first that is wrong, or that asks for
help or the version, decides.

* `Invocation.ofArguments` — what the arguments ask for.
-/
import ScannerlessLR.Parser.Machine
import ScannerlessLR.Text

namespace ScannerlessLR

/-- What is wrong with the arguments. -/
inductive UsageError where
  | unknownOption (argument : String)
  | missingValue (option : String)
  | invalidValue (option value : String)
  | unexpectedValue (option : String)
  | repeated (option : String)
  | unexpectedArgument (argument : String)
  | emptyArgument
  | missingArgument
  deriving DecidableEq, Repr

/-- The wording of a usage error. -/
def UsageError.message : UsageError → String
  | .unknownOption argument => s!"unknown option '{argument}'"
  | .missingValue option => s!"option '{option}' needs a value"
  | .invalidValue option value => s!"'{value}' is no value for option '{option}'"
  | .unexpectedValue option => s!"option '{option}' takes no value"
  | .repeated option => s!"option '{option}' is given twice"
  | .unexpectedArgument argument => s!"unexpected argument '{argument}'"
  | .emptyArgument => "a file name must not be empty"
  | .missingArgument => "a table and an input are needed"

instance : ToString UsageError := ⟨UsageError.message⟩

/-- What the command line asks for. -/
inductive Invocation where
  | help
  | version
  | parse (table input : String) (config : Config)
  deriving DecidableEq, Repr

/-- What the arguments so far have set. -/
structure Arguments where
  /-- The names of the table and the input, newest first. -/
  files : List String := []
  endOfInput : Option UInt32 := none
  repeatReductions : Bool := false
  deriving DecidableEq, Repr

namespace Arguments

/-- The value of decimal digits, if there are any and nothing else. -/
def unsigned? (cs : List Char) : Option Nat :=
  if cs.isEmpty || !cs.all Char.isDigit then none
  else some (cs.foldl (fun n c => 10 * n + digitValue c) 0)

/-- The value of a decimal numeral with an optional sign. -/
def signed? : List Char → Option Int
  | '+' :: cs => (unsigned? cs).map Int.ofNat
  | '-' :: cs => (unsigned? cs).map fun n => -Int.ofNat n
  | cs => (unsigned? cs).map Int.ofNat

/-- The point whose number is written in a text. -/
def point? (text : String) : Option UInt32 :=
  match signed? text.toList with
  | none => none
  | some n => if 0 ≤ n ∧ n < UInt32.size then some (.ofNat n.toNat) else none

/-- One more file name. -/
def addFile (a : Arguments) (name : String) : Except UsageError Arguments :=
  if name.isEmpty then .error .emptyArgument
  else if a.files.length < 2 then .ok { a with files := name :: a.files }
  else .error (.unexpectedArgument name)

/-- Sets the end-of-input marker. -/
def setEndOfInput (a : Arguments) (value : String) : Except UsageError Arguments :=
  match point? value with
  | none => .error (.invalidValue "--eof" value)
  | some p =>
    if a.endOfInput.isSome then .error (.repeated "--eof")
    else .ok { a with endOfInput := some p }

/-- Lets reductions be repeated. -/
def setRepeatReductions (a : Arguments) : Except UsageError Arguments :=
  if a.repeatReductions then .error (.repeated "--no-dedup")
  else .ok { a with repeatReductions := true }

/-- What complete arguments ask for. -/
def finish (a : Arguments) : Except UsageError Invocation :=
  match a.files with
  | [input, table] => .ok <| .parse table input {
      endOfInput := a.endOfInput.getD 256
      deduplicate := !a.repeatReductions }
  | _ => .error .missingArgument

/-- An argument is an option if it starts with a dash and has more to it. -/
def isOption (argument : String) : Bool :=
  match argument.toList with
  | '-' :: _ :: _ => true
  | _ => false

/-- Looks at the arguments one by one. -/
def read (a : Arguments) : List String → Except UsageError Invocation
  | [] => a.finish
  | "--" :: rest => rest.foldlM addFile a >>= finish
  | "--help" :: _ => .ok .help
  | "--version" :: _ => .ok .version
  | "--no-dedup" :: rest => a.setRepeatReductions >>= (read · rest)
  | ["--eof"] => .error (.missingValue "--eof")
  | "--eof" :: value :: rest =>
    if isOption value then .error (.missingValue "--eof")
    else a.setEndOfInput value >>= (read · rest)
  | argument :: rest =>
    match argument.toList with
    | '-' :: '-' :: option =>
      let name := String.ofList ('-' :: '-' :: option.takeWhile (· ≠ '='))
      match option.dropWhile (· ≠ '=') with
      | [] => .error (.unknownOption argument)
      | _ :: value =>
        if name = "--eof" then a.setEndOfInput (String.ofList value) >>= (read · rest)
        else if name = "--help" ∨ name = "--version" ∨ name = "--no-dedup" then
          .error (.unexpectedValue name)
        else .error (.unknownOption argument)
    | '-' :: 'h' :: _ => .ok .help
    | '-' :: 'V' :: _ => .ok .version
    | '-' :: _ :: _ => .error (.unknownOption argument)
    | _ => a.addFile argument >>= (read · rest)

end Arguments

/-- What the arguments of the command line ask for. -/
def Invocation.ofArguments (arguments : List String) : Except UsageError Invocation :=
  Arguments.read {} arguments

end ScannerlessLR
