import LogicCircuit.Circuit.Basic
import LogicCircuit.Circuit.Error

/-!
# Editing circuits

Identifiers are given out in ascending order and not used again, until they run out; then the
smallest free one is taken. A wire is only connected to an empty slot of another gate, so no edit
ever overwrites a connection.

Main definitions:

* `addGate`: a new gate, with its identifier.
* `connect`, `disconnect?`: fill and empty an input slot.
* `removeGate?`: remove a gate with all its wires.
-/

namespace LogicCircuit.Circuit

/-! ## Identifiers -/

/-- Every identifier is below this bound, the greatest number of 32 bits. -/
def idBound : Nat := 4294967295

/-- The first number from `n` on that is skipped by the identifiers of ascending gates. -/
def freeIdFrom (n : Nat) : List Gate → GateId
  | [] => n
  | g :: rest => if g.id = n then freeIdFrom (n + 1) rest else n

/-- The smallest identifier that no gate has. -/
def freeId (c : Circuit) : GateId := freeIdFrom 0 c.gates

/-- The identifier for a new gate, and the one to be given out after it. -/
def allocate (c : Circuit) : GateId × GateId :=
  if c.nextId < idBound then (c.nextId, c.nextId + 1) else (c.freeId, c.nextId)

/-! ## Gates -/

/-- Put a gate into a list of ascending gates. -/
def insertGate (g : Gate) : List Gate → List Gate
  | [] => [g]
  | h :: rest => if h.id < g.id then h :: insertGate g rest else g :: h :: rest

/-- Add a gate with empty slots; its letter becomes a capital. -/
def addGate (c : Circuit) (kind : GateKind) (position : Position := {}) : GateId × Circuit :=
  let (id, nextId) := c.allocate
  (id, { c with gates := insertGate (.fresh id kind.normalized position) c.gates, nextId })

/-- Add a gate that brings its own identifier; its letter becomes a capital. -/
def addGateAs (c : Circuit) (g : Gate) : Except CircuitError Circuit :=
  if idBound ≤ g.id then .error (.idOutOfRange g.id)
  else if c.contains g.id then .error (.duplicateGate g.id)
  else
    .ok { c with
      gates := insertGate { g with kind := g.kind.normalized } c.gates
      nextId := max c.nextId (g.id + 1) }

/-- Place a gate elsewhere, if it exists. -/
def moveGate? (c : Circuit) (id : GateId) (position : Position) : Option Circuit :=
  if c.contains id then some (c.modifyGate id fun g => { g with position }) else none

/-- Remove a gate and every wire at it, if it exists. -/
def removeGate? (c : Circuit) (id : GateId) : Option Circuit :=
  if c.contains id then
    some { c with
      gates := (c.gates.filter (·.id != id)).map (·.forget id)
      wires := c.wires.filter fun w => w.source != id && w.target != id }
  else none

/-! ## Wires -/

/-- Fill a slot of a gate, or empty it. -/
def setSlot (c : Circuit) (target : GateId) (slot : Nat) (driver : Option GateId) : Circuit :=
  c.modifyGate target fun g => { g with slots := g.slots.set slot driver }

/-- Fill a slot and add the wire that belongs to it. -/
def attach (c : Circuit) (source target : GateId) (slot : Nat) : Circuit :=
  { c.setSlot target slot (some source) with wires := c.wires ++ [{ source, target, slot }] }

/-- Connect a gate to an input slot of another gate. Both gates have to exist and to differ, and
the slot has to exist and to be empty. -/
def connect (c : Circuit) (source target : GateId) (slot : Nat) : Except CircuitError Circuit :=
  if !c.contains source then .error (.unknownGate source)
  else if source = target then .error (.selfLoop source)
  else
    match c.gate? target with
    | none => .error (.unknownGate target)
    | some g =>
      if g.slots.length ≤ slot then .error (.arityMismatch target g.slots.length slot)
      else if (g.driver? slot).isSome then .error (.slotTaken target slot)
      else .ok (c.attach source target slot)

/-- Remove the wire that enters a slot, if there is one. -/
def disconnect? (c : Circuit) (target : GateId) (slot : Nat) : Option (Wire × Circuit) :=
  (c.wires.find? (·.enters target slot)).map fun w =>
    (w, { c.setSlot target slot none with wires := c.wires.eraseP (·.enters target slot) })

/-! ## Activity -/

/-- Take every activity mark away. -/
def clearActivity (c : Circuit) : Circuit :=
  { c with
    gates := c.gates.map fun g => { g with active := false }
    wires := c.wires.map fun w => { w with active := false } }

/-- Mark a gate, and the wires that enter it, as active. -/
def activate (c : Circuit) (id : GateId) : Circuit :=
  { c.modifyGate id fun g => { g with active := true } with
    wires := c.wires.map fun w => if w.target = id then { w with active := true } else w }

end LogicCircuit.Circuit
