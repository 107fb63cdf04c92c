import LogicCircuit.Assignment
import LogicCircuit.Circuit.Basic
import LogicCircuit.Circuit.Error

/-!
# Evaluation

Every gate of a circuit gets a value from an assignment of the letters; a letter that is not
assigned and a slot that is not connected are unset. The order in which the gates are computed
does not depend on the assignment: it is found by a depth-first visit of all gates, which fails
when it meets a gate again that it has not left yet.

Main definitions:

* `Circuit.plan`: the gates, each after those it depends on, or a gate on a loop.
* `Gate.compute`: the value of a gate, given the values of the others.
* `Circuit.evaluate`: the values of all gates.
-/

namespace LogicCircuit

/-! ## Values -/

/-- The values of the gates of a circuit. -/
structure Evaluation where
  values : List (GateId × Value) := []
  sinks : List GateId := []
  deriving DecidableEq, Repr, Inhabited

namespace Evaluation

/-- The value that a list gives to a gate, unset if it gives none. -/
def valueIn (values : List (GateId × Value)) (id : GateId) : Value :=
  (values.lookup id).getD .unset

/-- The value of a gate, unset if there is no such gate. -/
def value (e : Evaluation) (id : GateId) : Value := valueIn e.values id

/-- The values of the outputs. -/
def outputs (e : Evaluation) : List Value := e.sinks.map e.value

/-- The value of the first output, unset if there is none. -/
def firstOutput (e : Evaluation) : Value := e.outputs.headD .unset

end Evaluation

/-- The value at an input of a gate, given the values of the other gates. -/
def Gate.inputValue (value : GateId → Value) (g : Gate) (slot : Nat) : Value :=
  match g.driver? slot with
  | some id => value id
  | none => .unset

/-- The value of a gate, given the values of the other gates. -/
def Gate.compute (s : Assignment) (value : GateId → Value) (g : Gate) : Value :=
  match g.kind with
  | .const b => .known b
  | .var letter => s.value letter
  | .not => (g.inputValue value 0).complement
  | .binary op => op.combine (g.inputValue value 0) (g.inputValue value 1)

namespace Circuit

/-! ## The order of computation -/

/-- Visit a gate and all it depends on, and add to the finished gates those not finished before.
The path holds the gates that are being visited; its length and the fuel add up to one more than
the number of gates, so the fuel lasts. -/
def visit (c : Circuit) : Nat → List GateId → List Gate → GateId → Except LoopError (List Gate)
  | 0, _, finished, _ => .ok finished
  | fuel + 1, path, finished, id =>
    if finished.any (·.id == id) then .ok finished
    else if path.contains id then .error ⟨id⟩
    else
      match c.gate? id with
      | none => .ok finished
      | some g => do
        let finished ← g.inputs.foldlM (fun finished d => visit c fuel (id :: path) finished d) finished
        return finished ++ [g]

/-- The gates, each after those it depends on. Fails with a gate on a loop. -/
def plan (c : Circuit) : Except LoopError (List Gate) :=
  c.ids.foldlM (fun finished id => c.visit (c.gates.length + 1) [] finished id) []

/-! ## Evaluating -/

/-- The values of some gates, computed one after the other; the latest one comes first. -/
def valuesAlong (s : Assignment) (gates : List Gate) : List (GateId × Value) :=
  gates.foldl (fun values g => (g.id, g.compute s (Evaluation.valueIn values)) :: values) []

/-- The evaluation in a given order of computation. -/
def evaluateAlong (c : Circuit) (gates : List Gate) (s : Assignment) : Evaluation :=
  { values := valuesAlong s gates, sinks := c.sinks }

/-- The values of all gates under an assignment. Fails with a gate on a loop. -/
def evaluate (c : Circuit) (s : Assignment) : Except LoopError Evaluation :=
  c.plan.map fun gates => c.evaluateAlong gates s

end Circuit

end LogicCircuit
