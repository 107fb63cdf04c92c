import LogicCircuit.Circuit.Edit
import LogicCircuit.Circuit.Inputs
import LogicCircuit.Evaluation

/-!
# Propagation level by level

Signals start from the gates without inputs, and each step reaches the gates whose inputs have all
been reached. Values play no part in that. A gate with an empty slot is reached through its
connected inputs; a gate with inputs of which none is connected is never reached.

Main definitions:

* `Propagation.advance`: one step, which marks the gates it reaches and recomputes the values.
* `Propagation.history`, `Propagation.run`: all steps.
-/

namespace LogicCircuit

/-- How far a propagation has come. -/
structure Propagation where
  /-- The number of the last step, none if nothing has been started. -/
  step? : Option Nat := none
  deriving DecidableEq, Repr, Inhabited

/-- What one step does. -/
inductive Step where
  /-- The start: the gates without inputs are reached. -/
  | sources (gates : List GateId)
  /-- Further gates are reached, and the values computed from the inputs as they are. -/
  | reached (step : Nat) (gates : List GateId) (values : Evaluation)
  /-- No gate was left to reach. -/
  | finished
  deriving DecidableEq, Repr

/-- The gates that a step reaches. -/
def Step.gates : Step → List GateId
  | sources gates => gates
  | reached _ gates _ => gates
  | finished => []

/-- The gates without inputs. -/
def Circuit.sources (c : Circuit) : List GateId := (c.gates.filter (·.kind.isSource)).map (·.id)

/-- Whether the gate exists and has been reached. -/
def Circuit.isActive (c : Circuit) (id : GateId) : Bool := ((c.gate? id).map (·.active)).getD false

/-- The gates that the next step reaches. -/
def Circuit.frontier (c : Circuit) : List GateId :=
  (c.gates.filter fun g => !g.active && !g.inputs.isEmpty && g.inputs.all c.isActive).map (·.id)

/-- Mark several gates as active. -/
def Circuit.activateAll (c : Circuit) (ids : List GateId) : Circuit := ids.foldl activate c

namespace Propagation

/-- Nothing started. -/
def idle : Propagation := {}

/-- Whether nothing has been started. -/
def isIdle (p : Propagation) : Bool := p.step?.isNone

/-- What comes of a step: its result, how far the propagation has come, and the circuit. -/
structure Advance where
  result : Except LoopError Step
  propagation : Propagation
  circuit : Circuit

/-- Start from the gates without inputs. -/
def start (c : Circuit) : Advance :=
  { result := .ok (.sources c.sources)
    propagation := ⟨some 0⟩
    circuit := c.clearActivity.activateAll c.sources }

/-- The step after a given one. A loop stops the propagation, and the marks stay. -/
def continueFrom (step : Nat) (c : Circuit) : Advance :=
  let frontier := c.frontier
  if frontier.isEmpty || c.gates.length < step + 1 then
    { result := .ok .finished, propagation := idle, circuit := c }
  else
    let marked := c.activateAll frontier
    match marked.evaluate marked.inputAssignment with
    | .error e => { result := .error e, propagation := idle, circuit := marked }
    | .ok values =>
      { result := .ok (.reached (step + 1) frontier values)
        propagation := ⟨some (step + 1)⟩
        circuit := marked.applyValues values.value }

/-- One step. -/
def advance (p : Propagation) (c : Circuit) : Advance :=
  match p.step? with
  | none => start c
  | some step => continueFrom step c

/-- What comes of several steps: those that were made before the propagation finished or failed,
the loop that stopped it, how far it has come, and the circuit. -/
structure History where
  steps : List Step := []
  error? : Option LoopError := none
  propagation : Propagation
  circuit : Circuit

/-- Advance until the propagation finishes or fails, at most `fuel` times. -/
def historyFor : Nat → Propagation → Circuit → History
  | 0, p, c => { propagation := p, circuit := c }
  | fuel + 1, p, c =>
    let a := p.advance c
    match a.result with
    | .error e => { error? := some e, propagation := a.propagation, circuit := a.circuit }
    | .ok .finished => { propagation := a.propagation, circuit := a.circuit }
    | .ok step =>
      let h := historyFor fuel a.propagation a.circuit
      { h with steps := step :: h.steps }

/-- Advance until the propagation finishes or fails. Each step but the first and the last reaches
a gate that was not reached before, so two more steps than gates are enough. -/
def history (p : Propagation) (c : Circuit) : History := historyFor (c.gates.length + 2) p c

/-- What comes of all steps: the gates that each of them reached, how far the propagation has
come, and the circuit. -/
structure Run where
  result : Except LoopError (List (List GateId))
  propagation : Propagation
  circuit : Circuit

/-- Advance until the propagation finishes or fails. -/
def run (p : Propagation) (c : Circuit) : Run :=
  let h := p.history c
  { result :=
      match h.error? with
      | some e => .error e
      | none => .ok (h.steps.map Step.gates)
    propagation := h.propagation
    circuit := h.circuit }

end Propagation

end LogicCircuit
