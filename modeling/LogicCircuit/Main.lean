import LogicCircuit.CommandLine.Run

/-!
# The program

Reads the arguments, carries the command out on the files of the system, prints, and ends with the
exit status of the command.
-/

namespace LogicCircuit

/-! ## The files of the system -/

/-- The failure of a system call. -/
def FileError.ofSystem : IO.Error → FileError
  | .noFileOrDirectory .. => .notFound
  | .inappropriateType _ code details =>
    if code = 20 then .notDirectory else if code = 21 then .isDirectory else .other details
  | .invalidArgument _ code details => if code = 36 then .nameTooLong else .other details
  | e => .other (toString e)

/-- A system call whose failure is a result. -/
def FileError.catching {α : Type} (action : IO α) : IO (Except FileError α) := do
  try
    return .ok (← action)
  catch e =>
    return .error (.ofSystem e)

instance : FileSystem IO where
  read path := FileError.catching do return (← IO.FS.readBinFile path).toList
  create path := FileError.catching (IO.FS.writeBinFile path ByteArray.empty)
  write path bytes := FileError.catching (IO.FS.writeBinFile path ⟨bytes.toArray⟩)

/-! ## Help -/

/-- What is printed for help. -/
def helpText : String := Text.unlines [
  "Compile Boolean formulas into circuits, and evaluate and compare circuits",
  "",
  "Commands:",
  "  show               Show statistics about a circuit",
  "  evaluate           Evaluate a circuit for an assignment of the variables",
  "  table              Compute the truth table of a circuit",
  "  step               Propagate the signals through a circuit, one level at a time",
  "  compile            Save the circuit of a formula or file as .json or .bench",
  "  check-equivalence  Check equivalence between two circuits",
  "  help               Print this message",
  "",
  "Arguments:",
  "  a formula, such as \"A + B . !C\", or two of them for check-equivalence",
  "",
  "Options:",
  "      --circuit <FILE>    Circuit file in JSON format, instead of a formula",
  "      --max-depth <N>     Maximum nesting depth of formulas",
  "      --max-vars <N>      Maximum number of variables in a truth table",
  "  -s, --set <LETTER=BIT>  Value of a variable, for evaluate and step",
  "  -o, --output <FILE>     Output file, for table and compile",
  "  -h, --help              Print help",
  "  -V, --version           Print version"]

/-- The version of the program. -/
def versionText : String := Text.unlines ["LogicCircuit 0.1.0"]

/-- What is printed about arguments that are no command. -/
def UsageError.complaint : UsageError → String
  | help | version => ""
  | noCommand => helpText
  | unknownCommand => "error: unrecognized subcommand\n"
  | unknownArgument => "error: unexpected argument\n"
  | missingValue => "error: a value is required\n"
  | invalidValue => "error: invalid value\n"
  | unwantedValue => "error: unexpected value\n"
  | conflict => "error: arguments cannot be used together\n"
  | missingArgument => "error: a required argument was not provided\n"

/-- What comes of a usage error: the text for those who ask, or a complaint. -/
def UsageError.answer : UsageError → String
  | help => helpText
  | version => versionText
  | _ => ""

end LogicCircuit

open LogicCircuit in
/-- The program. -/
def main (arguments : List String) : IO UInt32 := do
  match Command.ofArguments arguments with
  | .error e =>
    IO.print e.answer
    IO.eprint e.complaint
    return e.status.toUInt32
  | .ok command =>
    let r ← (command.run : IO Report)
    IO.print r.output
    IO.eprint r.complaint
    return r.status.toUInt32
