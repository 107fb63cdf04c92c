import LogicCircuit.Assignment
import LogicCircuit.Circuit.Basic

/-!
# Inputs of a circuit

A letter may be represented by several gates. Setting a letter sets all of them; reading it back
takes the first gate that carries a bit.
-/

namespace LogicCircuit.Circuit

/-- Change the value of the gates that stand for a letter. -/
def mapInputs (c : Circuit) (f : Char → Value → Value) : Circuit :=
  c.mapGates fun g =>
    match g.kind with
    | .var letter => { g with value := f letter g.value }
    | _ => g

/-- The gates that stand for a letter. -/
def inputGates (c : Circuit) (letter : Char) : List GateId :=
  (c.gates.filter (·.kind = .var letter.toUpper)).map (·.id)

/-- Set every gate of a letter, in either case. -/
def setInput (c : Circuit) (letter : Char) (value : Value) : Circuit :=
  c.mapInputs fun l old => if l = letter.toUpper then value else old

/-- Set all letters; one that is not assigned becomes unset. -/
def setInputs (c : Circuit) (s : Assignment) : Circuit := c.mapInputs fun l _ => s.value l

/-- Unset all letters. -/
def resetInputs (c : Circuit) : Circuit := c.mapInputs fun _ _ => .unset

/-- The assignment extended by the bit of a gate that stands for a letter not assigned yet. -/
def readInput (s : Assignment) (g : Gate) : Assignment :=
  match g.kind.letter?, g.value.bit? with
  | some letter, some bit => if (s.get? letter).isSome then s else s.set letter bit
  | _, _ => s

/-- The bits that the letters carry. Where gates of a letter differ, the first bit counts. -/
def inputAssignment (c : Circuit) : Assignment := c.gates.foldl readInput {}

/-- Store values in all gates but those of letters. -/
def applyValues (c : Circuit) (value : GateId → Value) : Circuit :=
  c.mapGates fun g =>
    match g.kind with
    | .var _ => g
    | _ => { g with value := value g.id }

end LogicCircuit.Circuit
