import LogicCircuit.Error
import LogicCircuit.FileStore.Basic
import LogicCircuit.Netlist
import LogicCircuit.Record.Json
import LogicCircuit.TruthTable.Csv

/-!
# Circuits and tables in files

The extension of a path tells the format: `json` for circuit records, which are read and written,
and `bench` for netlists, which are only written. A destination is created, and thereby emptied,
before its text is made; a circuit that has no netlist leaves it empty.
-/

namespace LogicCircuit

variable {m : Type → Type} [Monad m] [FileSystem m]

/-- A result with errors of another type. -/
def liftError {ε α : Type} (f : ε → Error) (r : Except ε α) : ExceptT Error m α :=
  ExceptT.mk (pure (r.mapError f))

/-- An effect on files that may fail. -/
def fileEffect {α : Type} (action : m (Except FileError α)) : ExceptT Error m α :=
  ExceptT.mk (Except.mapError Error.file <$> action)

/-- The error for an extension that stands for no format. -/
def unknownExtension (extension : Option String) : Error :=
  .circuit (.unsupportedExtension (extension.getD ""))

/-- Read the circuit in a file. A directory can be opened but holds no record. -/
def readCircuit (path : String) : ExceptT Error m Circuit := do
  match (Path.ofText path).extension? with
  | some "json" =>
    match ← (FileSystem.read path : m _) with
    | .ok bytes => liftError .circuit (Circuit.load (Text.decode bytes))
    | .error .isDirectory => throw (.circuit .malformed)
    | .error e => throw (.file e)
  | extension => throw (unknownExtension extension)

/-- Create a file, and then write the text that is made for it. -/
def writeText (path : String) (text : Except CircuitError String) : ExceptT Error m Unit := do
  fileEffect (FileSystem.create path)
  let text ← liftError .circuit text
  fileEffect (FileSystem.write path (Text.encode text))

/-- Write a text to a destination that takes a limited number of bytes. -/
def writeLimited (limit : Nat) (text : String) : Except FileError Unit :=
  if limit < (Text.encode text).length then .error .full else .ok ()

/-- Write a circuit into a file. -/
def writeCircuit (path : String) (c : Circuit) : ExceptT Error m Unit :=
  match (Path.ofText path).extension? with
  | some "json" => writeText path (.ok c.saved)
  | some "bench" => writeText path (c.netlist.map (·.text))
  | extension => throw (unknownExtension extension)

/-- Write a table into a file as comma-separated values. -/
def writeTable (path : String) (t : TruthTable) : ExceptT Error m Unit :=
  writeText path (.ok t.csv)

end LogicCircuit
