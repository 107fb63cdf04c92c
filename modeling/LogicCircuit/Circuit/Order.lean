import LogicCircuit.Circuit.Basic
import LogicCircuit.Circuit.Error

/-!
# Sorting gates by dependency

An order of the gates in which every gate comes after the gates it depends on. Gates that are
ready wait on a stack: at the start those without inputs, the smallest identifier on top; after a
gate is taken, those of its targets that thereby became ready go on top, in the order of the last
wire to each.

Main definitions:

* `order`: the sorted gates, or the smallest gate that a loop keeps from being sorted.
-/

namespace LogicCircuit.Circuit

/-- The targets of a gate, each once, in the order of the last wire to it, latest first. -/
def targets (c : Circuit) (id : GateId) : List GateId :=
  ((c.fanout id).map (·.target)).reverse.eraseDups

/-- Whether the gate exists and all its inputs are among the given gates. -/
def isReady (c : Circuit) (sorted : List GateId) (id : GateId) : Bool :=
  match c.gate? id with
  | some g => g.inputs.all sorted.contains
  | none => false

/-- Take gates from the stack until it is empty, at most `fuel` of them. -/
def takeReady (c : Circuit) : Nat → List GateId → List GateId → List GateId
  | 0, _, sorted => sorted
  | _, [], sorted => sorted
  | fuel + 1, id :: stack, sorted =>
    let sorted := sorted ++ [id]
    takeReady c fuel ((c.targets id).filter (c.isReady sorted) ++ stack) sorted

/-- The gates that can be sorted, sorted. -/
def sortable (c : Circuit) : List GateId :=
  takeReady c c.gates.length ((c.gates.filter (·.inputs.isEmpty)).map (·.id)) []

/-- The gates in an order of dependency. Fails with the smallest gate that cannot be sorted, one
on a loop or behind one. -/
def order (c : Circuit) : Except LoopError (List GateId) :=
  let sorted := c.sortable
  match c.ids.find? (!sorted.contains ·) with
  | some id => .error ⟨id⟩
  | none => .ok sorted

/-- Whether the circuit has no loop; otherwise a gate on a loop or behind one. -/
def checkAcyclic (c : Circuit) : Except LoopError Unit := c.order.map fun _ => ()

end LogicCircuit.Circuit
