import LogicCircuit.Gate.Kind
import LogicCircuit.Gate.Position

/-!
# Gates

A gate has an identifier, a kind, one slot per input, the last value it was given, an activity
mark that the step-by-step propagation sets, and a position.
-/

namespace LogicCircuit

/-- The identifier of a gate within its circuit. -/
abbrev GateId := Nat

/-- The written form of an identifier. -/
def GateId.text (id : GateId) : String := s!"x{id}"

/-- A gate of a circuit. -/
structure Gate where
  id : GateId
  kind : GateKind
  /-- For each input the gate that drives it, if it is connected. -/
  slots : List (Option GateId)
  value : Value := .unset
  /-- Whether the propagation has reached the gate. -/
  active : Bool := false
  position : Position := {}
  deriving DecidableEq, Repr

namespace Gate

/-- A gate with empty slots. -/
def fresh (id : GateId) (kind : GateKind) (position : Position) : Gate :=
  { id, kind, slots := List.replicate kind.arity none, position }

/-- The gates that drive the connected inputs, in the order of the slots. -/
def inputs (g : Gate) : List GateId := g.slots.filterMap fun s => s

/-- The gate with the slots emptied that another gate drives. -/
def forget (g : Gate) (id : GateId) : Gate :=
  { g with slots := g.slots.map fun s => if s = some id then none else s }

/-- Whether every input is connected. -/
def isComplete (g : Gate) : Bool := g.slots.all (·.isSome)

/-- The first input that is not connected. -/
def openSlot? (g : Gate) : Option Nat := g.slots.findIdx? (·.isNone)

/-- The driver of an input, if the slot exists and is connected. -/
def driver? (g : Gate) (slot : Nat) : Option GateId := (g.slots[slot]?).join

/-- The written form of the driver of an input. -/
def inputText (g : Gate) (slot : Nat) : String :=
  match g.driver? slot with
  | some id => GateId.text id
  | none => "##"

/-- The written form: what the gate computes from which gates. -/
def text (g : Gate) : String :=
  match g.kind with
  | .const b => (Value.digit b).toString
  | .var c => c.toString
  | .not => "!" ++ g.inputText 0
  | .binary op => s!"{op.keyword}({g.inputText 0}, {g.inputText 1})"

@[simp] theorem inputs_fresh (id : GateId) (kind : GateKind) (position : Position) :
    (fresh id kind position).inputs = [] := by
  simp [inputs, fresh, List.filterMap_replicate_of_none]

end Gate

end LogicCircuit
