import LogicCircuit.Circuit.Edit
import LogicCircuit.Circuit.Order
import LogicCircuit.Record.Basic

/-!
# Circuits of records

A circuit is built from a record gate by gate and wire by wire; then the slots that the gates
declare have to be those that the wires filled, and the circuit must not have a loop. The first
fault in this order is reported.

Main definitions:

* `CircuitRecord.circuit`: the circuit of a record.
-/

namespace LogicCircuit

/-- Add the gate of a record, with empty slots. -/
def GateRecord.addTo (r : GateRecord) (c : Circuit) : Except CircuitError Circuit :=
  match GateKind.ofText? r.kind with
  | none => .error (.unknownKind r.kind)
  | some kind =>
    if r.slots.length ≠ kind.arity then .error (.arityMismatch r.id kind.arity r.slots.length)
    else
      c.addGateAs { Gate.fresh r.id kind { x := r.x, y := r.y } with value := r.value }

/-- Add the wire of a record. -/
def WireRecord.addTo (r : WireRecord) (c : Circuit) : Except CircuitError Circuit :=
  c.connect r.source r.target r.slot

/-- Compare the slots that a record declares with those of the circuit. -/
def GateRecord.check (r : GateRecord) (c : Circuit) : Except CircuitError Unit :=
  match (r.slots.filterMap fun s => s).find? (!c.contains ·) with
  | some id => .error (.unknownGate id)
  | none =>
    if (c.gate? r.id).map (·.slots) = some r.slots then .ok () else .error (.slotMismatch r.id)

/-- The circuit of a record. -/
def CircuitRecord.circuit (r : CircuitRecord) : Except CircuitError Circuit := do
  let c ← r.gates.foldlM (fun c g => g.addTo c) Circuit.empty
  let c ← r.wires.foldlM (fun c w => w.addTo c) c
  r.gates.forM (·.check c)
  match c.checkAcyclic with
  | .ok _ => return c
  | .error e => throw (.loop e)

end LogicCircuit
