import LogicCircuit.Circuit.OfFormula
import LogicCircuit.Circuit.Statistics
import LogicCircuit.CommandLine.Arguments
import LogicCircuit.Equivalence
import LogicCircuit.FileStore.Formats
import LogicCircuit.Propagation
import LogicCircuit.TruthTable.Lookup

/-!
# Running commands

What each command prints, the error it ends with, and its exit status. What was printed before an
error stays printed. Only circuits and tables in files are effects; everything else is a function
of the circuit.

Main definitions:

* `Report`: what comes of a command.
* `Command.run`: a command carried out.
-/

namespace LogicCircuit

/-- What comes of a command. -/
structure Report where
  output : String := ""
  error? : Option Error := none
  status : Nat := 0
  deriving DecidableEq, Repr

namespace Report

/-- A command that prints some lines and succeeds. -/
def ofLines (lines : List String) : Report := { output := Text.unlines lines }

/-- A command that ends with an error, after it has printed some lines. -/
def failed (lines : List String) (e : Error) : Report :=
  { output := Text.unlines lines, error? := some e, status := 1 }

/-- What is printed about the error. -/
def complaint (r : Report) : String :=
  match r.error? with
  | some e => Text.unlines ["Error: " ++ e.message]
  | none => ""

end Report

namespace Circuit

/-! ## Describing -/

/-- The line of the first output as a function of the letters. -/
def functionLine (t : TruthTable) : List String :=
  match t.sinks, t.lookup? 0 with
  | sink :: _, some l =>
    let letters := ", ".intercalate (t.letters.map Char.toString)
    [s!"Function of {GateId.text sink}({letters}): 0x{l.hex}"]
  | _, _ => []

/-- The statistics and the gates of a circuit and, if it has no loop, its function. -/
def description (c : Circuit) (limits : Limits) : Report :=
  let lines := [c.statistics.text, c.text]
  match c.checkAcyclic with
  | .error _ => .ofLines lines
  | .ok _ =>
    match c.truthTable limits with
    | .ok t => .ofLines (lines ++ functionLine t)
    | .error e => .failed lines (.ofTable e)

/-! ## Evaluating -/

/-- Set inputs, a later one over an earlier one of the same letter. -/
def setAll (c : Circuit) (inputs : List (Char × Bool)) : Circuit :=
  inputs.foldl (fun c i => c.setInput i.1 (.known i.2)) c

/-- A line for every input that is set without effect. -/
def absentLines (c : Circuit) (inputs : List (Char × Bool)) : List String :=
  (inputs.filter fun i => (c.inputGates i.1).isEmpty).map fun i =>
    s!"Variable {i.1} does not appear in the circuit"

/-- A line for every output. -/
def outputLines (e : Evaluation) : List String :=
  e.sinks.zipIdx.map fun (id, i) => s!"o{i} = {GateId.text id} = {(e.value id).text}"

/-- The values of the outputs for some inputs. -/
def evaluationReport (c : Circuit) (inputs : List (Char × Bool)) : Report :=
  let lines := c.absentLines inputs
  let c := c.setAll inputs
  match c.evaluate c.inputAssignment with
  | .ok e => .ofLines (lines ++ outputLines e)
  | .error e => .failed lines (.evaluation e)

/-! ## Propagating -/

/-- The line of a step. -/
def stepLine : Step → String
  | .sources gates => "Step 0: " ++ ", ".intercalate (gates.map GateId.text)
  | .reached step gates values =>
    s!"Step {step}: " ++
      ", ".intercalate (gates.map fun id => s!"{GateId.text id}={(values.value id).text}")
  | .finished => ""

/-- The line of the gates that were not reached. -/
def unreachedLines (c : Circuit) : List String :=
  let count := c.gates.countP (!·.active)
  if count = 0 then [] else [s!"{count} gates were not reached"]

/-- The steps of a propagation for some inputs. -/
def propagationReport (c : Circuit) (inputs : List (Char × Bool)) : Report :=
  let h := Propagation.idle.history (c.setAll inputs)
  let lines := h.steps.map stepLine
  match h.error? with
  | some e => .failed lines (.evaluation e)
  | none => .ofLines (lines ++ h.circuit.unreachedLines)

/-! ## Comparing -/

/-- Whether two circuits are equivalent. -/
def comparison (circuits : List Circuit) (limits : Limits) : Report :=
  match circuits with
  | [a, b] =>
    match a.firstDifference? b limits with
    | .error e => .failed [] (.ofTable e)
    | .ok none => .ofLines ["Circuits are equivalent"]
    | .ok (some s) =>
      { output :=
          Text.unlines ["Circuits are not equivalent", "Failing assignment: " ++ s.text]
        status := 1 }
  | _ =>
    { output := Text.unlines [s!"Expected two circuits to compare, got {circuits.length}"]
      status := 2 }

end Circuit

/-! ## Commands -/

variable {m : Type → Type} [Monad m] [FileSystem m]

/-- The circuit of a formula. -/
def compiled (text : String) (limits : Limits) : ExceptT Error m Circuit :=
  liftError .formula (Circuit.compile text limits)

/-- The circuit of a source. -/
def Source.circuit (limits : Limits) : Source → ExceptT Error m Circuit
  | .formula text => compiled text limits
  | .file path => readCircuit path

namespace Command

/-- The table of a circuit, printed or written into a file. -/
def tabulate (c : Circuit) (limits : Limits) (destination : Option String) :
    ExceptT Error m Report := do
  let t ← liftError .ofTable (c.truthTable limits)
  match destination with
  | none => return { output := t.csv }
  | some path =>
    writeTable path t
    return {}

/-- A command carried out, as long as there is no error. -/
def attempt : Command → ExceptT Error m Report
  | describe source limits => do return (← source.circuit limits).description limits
  | evaluate source limits inputs => do
    return (← source.circuit limits).evaluationReport inputs
  | table source limits destination => do tabulate (← source.circuit limits) limits destination
  | step source limits inputs => do
    return (← source.circuit limits).propagationReport inputs
  | save source limits destination => do
    writeCircuit destination (← source.circuit limits)
    return {}
  | compare files formulas limits => do
    let saved ← files.mapM readCircuit
    let typed ← formulas.mapM (compiled · limits)
    return Circuit.comparison (saved ++ typed) limits

/-- A command carried out. -/
def run (c : Command) : m Report := do
  match ← (c.attempt : ExceptT Error m Report).run with
  | .ok r => return r
  | .error e => return .failed [] e

end Command

end LogicCircuit
