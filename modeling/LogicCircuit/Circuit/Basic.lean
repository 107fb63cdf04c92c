import LogicCircuit.Gate.Basic
import LogicCircuit.Text.Lines

/-!
# Circuits

A circuit is a list of gates in ascending order of their identifiers, a list of wires in the order
in which they were connected, and the identifier that the next gate will get. Each filled slot of
a gate belongs to exactly one wire. A gate without an outgoing wire is an output, called a sink.
Loops may arise while a circuit is edited; they are found when it is evaluated.
-/

namespace LogicCircuit

/-- A connection from a gate to an input slot of another gate. -/
structure Wire where
  source : GateId
  target : GateId
  slot : Nat
  /-- Whether the propagation has gone through the wire. -/
  active : Bool := false
  deriving DecidableEq, Repr

/-- Whether the wire enters a slot of a gate. -/
def Wire.enters (w : Wire) (target : GateId) (slot : Nat) : Bool :=
  w.target == target && w.slot == slot

/-- The written form of a wire. -/
def Wire.text (w : Wire) : String :=
  s!"{GateId.text w.source} -> {GateId.text w.target}[{w.slot}]"

/-- A combinational circuit. -/
structure Circuit where
  gates : List Gate := []
  wires : List Wire := []
  nextId : GateId := 0
  deriving DecidableEq, Repr, Inhabited

namespace Circuit

/-- The circuit without gates. -/
def empty : Circuit := {}

/-! ## Gates and wires -/

/-- The gate with an identifier. -/
def gate? (c : Circuit) (id : GateId) : Option Gate := c.gates.find? (·.id == id)

/-- Whether there is a gate with the identifier. -/
def contains (c : Circuit) (id : GateId) : Bool := c.gates.any (·.id == id)

/-- The identifiers of the gates. -/
def ids (c : Circuit) : List GateId := c.gates.map (·.id)

/-- The wires that leave a gate. -/
def fanout (c : Circuit) (id : GateId) : List Wire := c.wires.filter (·.source == id)

/-- The wires that enter a gate. -/
def fanin (c : Circuit) (id : GateId) : List Wire := c.wires.filter (·.target == id)

/-- Whether a wire leaves the gate. -/
def drives (c : Circuit) (id : GateId) : Bool := c.wires.any (·.source == id)

/-- The outputs: the gates that no wire leaves, in ascending order. -/
def sinks (c : Circuit) : List GateId := c.ids.filter (!c.drives ·)

/-- Whether the gate exists and is an output. -/
def isSink (c : Circuit) (id : GateId) : Bool := c.contains id && !c.drives id

/-- Change every gate. -/
def mapGates (c : Circuit) (f : Gate → Gate) : Circuit := { c with gates := c.gates.map f }

/-- Change the gate with an identifier. -/
def modifyGate (c : Circuit) (id : GateId) (f : Gate → Gate) : Circuit :=
  c.mapGates fun g => if g.id = id then f g else g

/-! ## Written form -/

/-- The lines that describe the gates, then the outputs. -/
def lines (c : Circuit) : List String :=
  s!"Circuit with {c.gates.length} gates, {c.wires.length} wires, {c.sinks.length} outputs:" ::
    c.gates.map (fun g => s!"\t{GateId.text g.id} = {g.text}") ++
    c.sinks.zipIdx.map fun (id, i) => s!"\to{i} = {GateId.text id}"

/-- The written form. -/
def text (c : Circuit) : String := Text.unlines c.lines

theorem contains_iff {c : Circuit} {id : GateId} : c.contains id = true ↔ id ∈ c.ids := by
  simp [contains, ids, List.any_eq_true, List.mem_map]

theorem contains_eq_isSome {c : Circuit} {id : GateId} : c.contains id = (c.gate? id).isSome := by
  rw [Bool.eq_iff_iff]
  simp [contains, gate?]

end Circuit

end LogicCircuit
