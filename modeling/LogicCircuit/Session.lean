import LogicCircuit.Circuit.OfFormula
import LogicCircuit.Error
import LogicCircuit.Propagation
import LogicCircuit.Record.Json
import LogicCircuit.TruthTable.Csv

/-!
# Sessions

A session holds one circuit, a propagation through it, and limits. A text or a file that is
refused and an evaluation that fails leave the circuit as it is; a tabulation that a loop stops has
unset the inputs, and a step that a loop stops has marked the gates it reached. Whatever may change
the shape of the circuit abandons the propagation.

Each operation that may fail answers its result together with the session afterwards.
-/

namespace LogicCircuit

/-- One circuit in the making. -/
structure Session where
  circuit : Circuit := .empty
  propagation : Propagation := .idle
  limits : Limits := {}
  deriving DecidableEq, Repr, Inhabited

namespace Session

/-- Put another circuit in place, which abandons the propagation. -/
def replace (s : Session) (c : Circuit) : Session :=
  { s with circuit := c, propagation := .idle }

/-- Put a new circuit in place, or keep the old one if there is an error. -/
def adopt {ε : Type} (s : Session) : Except ε Circuit → Except ε Unit × Session
  | .ok c => (.ok (), s.replace c)
  | .error e => (.error e, s)

/-- Put the circuit of a text in place. -/
def compile (s : Session) (text : String) : Except Formula.SyntaxError Unit × Session :=
  s.adopt (Circuit.compile text s.limits)

/-- Put the circuit of the text of a file in place. -/
def load (s : Session) (text : String) : Except CircuitError Unit × Session :=
  s.adopt (Circuit.loadText text)

/-- Remove the circuit. -/
def reset (s : Session) : Session := s.replace .empty

/-- Edit the circuit, which abandons the propagation even if the edit changes nothing. -/
def edit {α : Type} (s : Session) (f : Circuit → α × Circuit) : α × Session :=
  let (a, c) := f s.circuit
  (a, s.replace c)

/-- Set every gate of a letter. -/
def setInput (s : Session) (letter : Char) (value : Value) : Session :=
  { s with circuit := s.circuit.setInput letter value }

/-- Evaluate the circuit with its inputs, and store the values in its gates. -/
def evaluate (s : Session) : Except LoopError Evaluation × Session :=
  match s.circuit.evaluate s.circuit.inputAssignment with
  | .error e => (.error e, s)
  | .ok values => (.ok values, { s with circuit := s.circuit.applyValues values.value })

/-- Tabulate the circuit, which abandons the propagation even if there is no table. -/
def truthTable (s : Session) : Except TableError TruthTable × Session :=
  let t := s.circuit.tabulate s.limits
  (t.table, s.replace t.circuit)

/-- The table as comma-separated values. -/
def csv (s : Session) : Except TableError String × Session :=
  let (table, s) := s.truthTable
  (table.map (·.csv), s)

/-- One step of the propagation. -/
def step (s : Session) : Except LoopError Step × Session :=
  let a := s.propagation.advance s.circuit
  (a.result, { s with propagation := a.propagation, circuit := a.circuit })

end Session

end LogicCircuit
