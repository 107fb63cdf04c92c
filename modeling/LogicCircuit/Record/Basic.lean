import LogicCircuit.Circuit.Basic

/-!
# Circuit records

What a circuit file says: for each gate its identifier, the name of its kind, its slots, its value
and its position, and for each wire its ends. Slots and wires carry the same information, so a
record may contradict itself; a circuit made from one never does.
-/

namespace LogicCircuit

/-- What a circuit file says about a gate. -/
structure GateRecord where
  id : GateId
  kind : String
  slots : List (Option GateId)
  value : Value := .unset
  x : Int := 0
  y : Int := 0
  deriving DecidableEq, Repr

/-- What a circuit file says about a wire. -/
structure WireRecord where
  source : GateId
  target : GateId
  slot : Nat
  deriving DecidableEq, Repr

/-- What a circuit file says. -/
structure CircuitRecord where
  gates : List GateRecord := []
  wires : List WireRecord := []
  deriving DecidableEq, Repr

/-- The record of a gate. -/
def Gate.record (g : Gate) : GateRecord where
  id := g.id
  kind := g.kind.text
  slots := g.slots
  value := g.value
  x := g.position.x
  y := g.position.y

/-- The record of a wire. -/
def Wire.record (w : Wire) : WireRecord := { source := w.source, target := w.target, slot := w.slot }

/-- The record of a circuit. Marks and the next identifier are not kept. -/
def Circuit.record (c : Circuit) : CircuitRecord where
  gates := c.gates.map Gate.record
  wires := c.wires.map Wire.record

end LogicCircuit
