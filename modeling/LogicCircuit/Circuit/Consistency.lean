import LogicCircuit.Circuit.Basic

/-!
# Consistency and structure

A check that the slots and the wires of a circuit tell the same story, and a comparison of two
circuits up to their identifiers.
-/

namespace LogicCircuit.Circuit

/-- Whether the list ascends strictly. -/
def isAscending : List Nat → Bool
  | a :: b :: rest => a < b && isAscending (b :: rest)
  | _ => true

/-- Whether the slot that the wire enters holds the source of the wire. -/
def holds (c : Circuit) (w : Wire) : Bool :=
  match c.gate? w.target with
  | some g => g.driver? w.slot == some w.source
  | none => false

/-- Whether the gates ascend below the next identifier, have as many slots as their kind has
inputs, and agree with the wires one by one and in number. -/
def isConsistent (c : Circuit) : Bool :=
  isAscending c.ids
    && c.gates.all (fun g => g.slots.length == g.kind.arity && g.id < c.nextId)
    && c.wires.all (fun w => c.contains w.source && c.holds w)
    && (c.gates.flatMap (·.inputs)).length == c.wires.length

/-- The rank of a gate in the order of identifiers. -/
def rank? (c : Circuit) (id : GateId) : Option Nat := c.ids.findIdx? (· == id)

/-- The slots of a gate, with every driver given by its rank. -/
def rankedSlots (c : Circuit) (g : Gate) : List (Option (Option Nat)) :=
  g.slots.map (·.map c.rank?)

/-- The kinds and the ranked slots of the gates: what is left of a circuit when identifiers,
values, marks and positions are ignored. -/
def shape (c : Circuit) : List (GateKind × List (Option (Option Nat))) :=
  c.gates.map fun g => (g.kind, c.rankedSlots g)

/-- Whether two circuits have gates of the same kinds connected in the same way, rank by rank. -/
def sameStructure (c d : Circuit) : Bool :=
  c.wires.length == d.wires.length && c.shape == d.shape

end LogicCircuit.Circuit
