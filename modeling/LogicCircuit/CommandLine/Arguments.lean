import LogicCircuit.Limits
import LogicCircuit.Text.Blank

/-!
# Command line arguments

A command is a word, followed by options and operands in any order. An option is written
`--name value`, `--name=value`, `-n value`, `-nvalue` or `-n=value`; two dashes alone make operands
of all that follows.

The arguments are read from left to right, and the value of an option is only looked at when the
next argument has been recognised: an argument that is not known counts before a bad value right in
front of it. Conflicts between arguments, and then arguments that are missing, are found at the end.

Main definitions:

* `Command`: what the program is asked to do.
* `Command.ofArguments`: the command that some arguments spell, or why they spell none.
-/

namespace LogicCircuit

/-- Where a circuit comes from. -/
inductive Source where
  | formula (text : String)
  | file (path : String)
  deriving DecidableEq, Repr

/-- What the program is asked to do. -/
inductive Command where
  /-- Describe a circuit. -/
  | describe (source : Source) (limits : Limits)
  /-- Evaluate a circuit for some inputs. -/
  | evaluate (source : Source) (limits : Limits) (inputs : List (Char × Bool))
  /-- Tabulate a circuit, into a file if there is one. -/
  | table (source : Source) (limits : Limits) (destination : Option String)
  /-- Propagate signals through a circuit. -/
  | step (source : Source) (limits : Limits) (inputs : List (Char × Bool))
  /-- Save a circuit. -/
  | save (source : Source) (limits : Limits) (destination : String)
  /-- Compare the circuits of files and those of formulas. -/
  | compare (files formulas : List String) (limits : Limits)
  deriving DecidableEq, Repr

/-- Why arguments are no command. -/
inductive UsageError where
  /-- Help is asked for. -/
  | help
  /-- The version is asked for. -/
  | version
  /-- There is no command. -/
  | noCommand
  /-- A word that is no command. -/
  | unknownCommand
  /-- An option that the command does not have, or an operand too many. -/
  | unknownArgument
  /-- An option without its value. -/
  | missingValue
  /-- A value that does not fit its option. -/
  | invalidValue
  /-- A value for an option that takes none. -/
  | unwantedValue
  /-- Arguments that exclude each other. -/
  | conflict
  /-- An argument that the command needs is missing. -/
  | missingArgument
  deriving DecidableEq, Repr

/-- The exit status of the program: to be asked for help or the version is no failure. -/
def UsageError.status : UsageError → Nat
  | help | version => 0
  | _ => 2

namespace CommandLine

/-! ## Commands and options -/

/-- The words for what the program does. -/
inductive Verb where
  | describe | evaluate | table | step | save | compare
  deriving DecidableEq, Repr

/-- The verb of a word. -/
def verb? : String → Option Verb
  | "show" => some .describe
  | "evaluate" | "eval" => some .evaluate
  | "table" | "tt" => some .table
  | "step" | "sim" => some .step
  | "compile" => some .save
  | "check-equivalence" | "equiv" => some .compare
  | _ => none

/-- The word that asks for help on a verb. -/
def helpWord : String := "help"

/-- An option that takes a value. -/
inductive Setting where
  | depth | letters | file | input | destination
  deriving DecidableEq, Repr

/-- Whether a verb has an option. -/
def Verb.has : Verb → Setting → Bool
  | _, .depth | _, .letters | _, .file => true
  | .evaluate, .input | .step, .input => true
  | .table, .destination | .save, .destination => true
  | _, _ => false

/-- Whether an option of a verb may be given more than once. -/
def Verb.repeats : Verb → Setting → Bool
  | _, .input => true
  | .compare, .file => true
  | _, _ => false

/-- Whether a verb takes another operand after some operands. -/
def Verb.hasRoom (v : Verb) (operands : List String) : Bool := v = .compare || operands.isEmpty

/-- What an option stands for. -/
inductive OptionName where
  | help | version
  | setting (setting : Setting)
  deriving DecidableEq, Repr

/-- The option of a long name. -/
def OptionName.ofLong? : String → Option OptionName
  | "help" => some .help
  | "version" => some .version
  | "max-depth" => some (.setting .depth)
  | "max-vars" => some (.setting .letters)
  | "circuit" => some (.setting .file)
  | "set" => some (.setting .input)
  | "output" => some (.setting .destination)
  | _ => none

/-- The option of a short name. -/
def OptionName.ofShort? : Char → Option OptionName
  | 'h' => some .help
  | 'V' => some .version
  | 's' => some (.setting .input)
  | 'o' => some (.setting .destination)
  | _ => none

/-! ## The form of an argument -/

/-- An argument by its form. -/
inductive Argument where
  /-- Two dashes: all that follows are operands. -/
  | dashes
  /-- An option, as far as its name is one, and the value that is attached to it. -/
  | option (name : Option OptionName) (attached : Option String)
  /-- Any other text. -/
  | word (text : String)
  deriving DecidableEq, Repr

/-- The text before and after the first equals sign, if there is one. -/
def splitAtEquals? : List Char → Option (List Char × List Char)
  | [] => none
  | c :: rest =>
    if c = '=' then some ([], rest)
    else (splitAtEquals? rest).map fun (before, behind) => (c :: before, behind)

/-- An option by its long name, with or without a value. -/
def longOption (text : List Char) : Argument :=
  match splitAtEquals? text with
  | some (name, value) => .option (OptionName.ofLong? (String.ofList name)) (some (String.ofList value))
  | none => .option (OptionName.ofLong? (String.ofList text)) none

/-- The value behind a short name; an equals sign in front of it does not count. -/
def shortValue? : List Char → Option String
  | [] => none
  | '=' :: value => some (String.ofList value)
  | value => some (String.ofList value)

/-- An option by its short name. What follows a name without a value would be further names, which
are never reached. -/
def shortOption (letter : Char) (rest : List Char) : Argument :=
  match OptionName.ofShort? letter with
  | some (.setting s) => .option (some (.setting s)) (shortValue? rest)
  | name => .option name none

/-- The form of an argument. A single dash is an ordinary word. -/
def Argument.ofText (text : String) : Argument :=
  match text.toList with
  | ['-', '-'] => .dashes
  | '-' :: '-' :: name => longOption name
  | '-' :: letter :: rest => shortOption letter rest
  | _ => .word text

/-! ## Values -/

/-- A natural number of 64 bits, with or without a plus sign. -/
def number? (text : String) : Option Nat :=
  let digits :=
    match text.toList with
    | '+' :: digits => digits
    | digits => digits
  let n := digits.foldl (fun n c => n * 10 + (c.toNat - '0'.toNat)) 0
  if !digits.isEmpty && digits.all Char.isDigit && n < 18446744073709551616 then some n else none

/-- A letter with its bit, written `A=1`. -/
def input? (text : String) : Option (Char × Bool) := do
  let (letter, bit) ← splitAtEquals? text.toList
  match Text.trim letter, Text.trim bit with
  | [c], ['0'] => if c.isAlpha then some (c.toUpper, false) else none
  | [c], ['1'] => if c.isAlpha then some (c.toUpper, true) else none
  | _, _ => none

/-- The options and operands that have been given. -/
structure Given where
  depth? : Option Nat := none
  letters? : Option Nat := none
  files : List String := []
  inputs : List (Char × Bool) := []
  destination? : Option String := none
  operands : List String := []
  deriving DecidableEq, Repr

namespace Given

/-- Whether an option has been given. -/
def has (g : Given) : Setting → Bool
  | .depth => g.depth?.isSome
  | .letters => g.letters?.isSome
  | .file => !g.files.isEmpty
  | .input => !g.inputs.isEmpty
  | .destination => g.destination?.isSome

/-- A value that has been read, unless it could not be. -/
def valid {α : Type} : Option α → Except UsageError α
  | some a => .ok a
  | none => .error .invalidValue

/-- A path, which must not be empty. -/
def path (text : String) : Except UsageError String :=
  if text.isEmpty then .error .missingValue else .ok text

/-- Give an option its value. -/
def add (v : Verb) (g : Given) (s : Setting) (value : String) : Except UsageError Given := do
  if g.has s && !v.repeats s then throw .conflict
  match s with
  | .depth => return { g with depth? := some (← valid (number? value)) }
  | .letters => return { g with letters? := some (← valid (number? value)) }
  | .file => return { g with files := g.files ++ [← path value] }
  | .input => return { g with inputs := g.inputs ++ [← valid (input? value)] }
  | .destination => return { g with destination? := some (← path value) }

/-- The limits. -/
def limits (g : Given) : Limits :=
  let base : Limits := {}
  { depth := g.depth?.getD base.depth, tableLetters := g.letters?.getD base.tableLetters }

/-- Where the circuit comes from. -/
def source (g : Given) : Except UsageError Source :=
  match g.operands, g.files with
  | _ :: _, _ :: _ => .error .conflict
  | text :: _, [] => .ok (.formula text)
  | [], path :: _ => .ok (.file path)
  | [], [] => .error .missingArgument

/-- The command of a verb. -/
def command (g : Given) : Verb → Except UsageError Command
  | .describe => do return .describe (← g.source) g.limits
  | .evaluate => do return .evaluate (← g.source) g.limits g.inputs
  | .table => do return .table (← g.source) g.limits g.destination?
  | .step => do return .step (← g.source) g.limits g.inputs
  | .save => do
    let source ← g.source
    match g.destination? with
    | some path => return .save source g.limits path
    | none => throw .missingArgument
  | .compare => return .compare g.files g.operands g.limits

end Given

/-! ## Reading the arguments of a verb -/

/-- How far the arguments have been read. -/
structure Reading where
  given : Given := {}
  /-- The option that was read last, with its value as far as it has been read. -/
  pending : Option (Setting × Option String) := none
  /-- Whether only operands follow. -/
  literal : Bool := false
  deriving DecidableEq, Repr

namespace Reading

/-- Give the last option its value. -/
def settle (v : Verb) (r : Reading) : Except UsageError Reading :=
  match r.pending with
  | none => .ok r
  | some (_, none) => .error .missingValue
  | some (s, some value) => do return { r with given := ← r.given.add v s value, pending := none }

/-- Read an operand. -/
def operand (v : Verb) (r : Reading) (text : String) : Except UsageError Reading := do
  if !v.hasRoom r.given.operands then throw .unknownArgument
  let r ← r.settle v
  return { r with given := { r.given with operands := r.given.operands ++ [text] } }

/-- Read an option. -/
def option (v : Verb) (r : Reading) (name : Option OptionName) (attached : Option String) :
    Except UsageError Reading :=
  match name, attached with
  | none, _ => .error .unknownArgument
  | some .help, some _ | some .version, some _ => .error .unwantedValue
  | some .help, none => do let _ ← r.settle v; throw .help
  | some .version, none => do let _ ← r.settle v; throw .version
  | some (.setting s), attached => do
    if !v.has s then throw .unknownArgument
    let r ← r.settle v
    match attached with
    | some value => return { r with given := ← r.given.add v s value }
    | none => return { r with pending := some (s, none) }

/-- Read an argument. -/
def step (v : Verb) (r : Reading) (text : String) : Except UsageError Reading :=
  if r.literal then r.operand v text
  else
    match Argument.ofText text, r.pending with
    | .dashes, _ => .ok { r with literal := true }
    | .option name attached, _ => r.option v name attached
    | .word text, some (s, none) => .ok { r with pending := some (s, some text) }
    | .word text, _ => r.operand v text

end Reading

/-- The command of a verb and the arguments behind it. -/
def Verb.command (v : Verb) (arguments : List String) : Except UsageError Command := do
  let r ← arguments.foldlM (Reading.step v) {}
  (← r.settle v).given.command v

/-! ## Reading all arguments -/

/-- Whether a word is a command. -/
def isCommand (word : String) : Bool := word = helpWord || (verb? word).isSome

/-- Help, or help on a command. -/
def helpOn : List String → UsageError
  | [] => .help
  | [word] => if isCommand word then .help else .unknownCommand
  | _ => .unknownCommand

/-- The command behind two dashes, where no command is understood. -/
def afterDashes : List String → UsageError
  | [] => .noCommand
  | word :: _ => if isCommand word then .unknownArgument else .unknownCommand

end CommandLine

open CommandLine in
/-- The command that some arguments spell, or why they spell none. -/
def Command.ofArguments : List String → Except UsageError Command
  | [] => .error .noCommand
  | first :: rest =>
    match Argument.ofText first with
    | .dashes => .error (afterDashes rest)
    | .option (some .help) none => .error .help
    | .option (some .version) none => .error .version
    | .option (some .help) (some _) | .option (some .version) (some _) => .error .unwantedValue
    | .option _ _ => .error .unknownArgument
    | .word word =>
      match verb? word with
      | some v => v.command rest
      | none => .error (if word = helpWord then helpOn rest else .unknownCommand)

end LogicCircuit
