import LogicCircuit.Gate.Basic

/-!
# Circuit errors

Why a wire, a circuit file or an export is refused, and why a circuit cannot be evaluated.
-/

namespace LogicCircuit

/-- The gate feeds back into its own inputs, or into those of a gate it depends on. -/
structure LoopError where
  gate : GateId
  deriving DecidableEq, Repr

/-- The wording of a loop. -/
def LoopError.message (e : LoopError) : String :=
  s!"combinational loop through gate {GateId.text e.gate}"

/-- The ways in which wiring, reading or exporting a circuit fails. -/
inductive CircuitError where
  /-- A reference to a gate that does not exist. -/
  | unknownGate (gate : GateId)
  /-- A number of slots, or the index of a slot, that does not fit the kind of the gate. -/
  | arityMismatch (gate : GateId) (arity found : Nat)
  /-- A second wire into a slot. -/
  | slotTaken (gate : GateId) (slot : Nat)
  /-- A wire from a gate to itself. -/
  | selfLoop (gate : GateId)
  /-- An identifier that no gate may have. -/
  | idOutOfRange (gate : GateId)
  /-- Two gates with one identifier. -/
  | duplicateGate (gate : GateId)
  /-- A text that names no kind of gate. -/
  | unknownKind (text : String)
  /-- The slots that a gate declares are not those that the wires fill. -/
  | slotMismatch (gate : GateId)
  /-- The circuit has a loop. -/
  | loop (error : LoopError)
  /-- An empty slot in a circuit that has to be complete. -/
  | openSlot (gate : GateId) (slot : Nat)
  /-- A text that is not a circuit record in JSON. -/
  | malformed
  /-- A file name whose extension stands for no format. -/
  | unsupportedExtension (extension : String)
  deriving DecidableEq, Repr

/-- The wording of a circuit error. -/
def CircuitError.message : CircuitError → String
  | unknownGate id => s!"reference to unknown gate {id.text}"
  | arityMismatch id arity found => s!"gate {id.text} has {arity} input slots, got {found}"
  | slotTaken id slot => s!"input slot {slot} of gate {id.text} is already connected"
  | selfLoop id => s!"gate {id.text} cannot drive its own input"
  | idOutOfRange id => s!"gate identifier {id.text} is out of range"
  | duplicateGate id => s!"gate {id.text} is defined twice"
  | unknownKind text => s!"unknown gate kind {text}"
  | slotMismatch id => s!"slots of gate {id.text} do not match the wires"
  | loop e => e.message
  | openSlot id slot => s!"input slot {slot} of gate {id.text} is not connected"
  | malformed => "malformed circuit file"
  | unsupportedExtension extension => s!"unsupported file extension '{extension}'"

end LogicCircuit
