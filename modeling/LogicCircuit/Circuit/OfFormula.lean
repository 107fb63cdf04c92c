import LogicCircuit.Circuit.Edit
import LogicCircuit.Formula.Parser

/-!
# Circuits of formulas

Every node of a formula becomes a gate of its own, a repeated letter as well. An operator gets its
identifier before its operands, and the left operand before the right one, so that identifiers
follow the text. The output is drawn on the right and operands spread to the left, by one shift for
each level of the formula; only beyond some 21 million levels would a coordinate leave 32 bits.

Main definitions:

* `addFormula`: the gates of a formula added to a circuit.
* `compile`: the circuit of a text.
-/

namespace LogicCircuit.Circuit

/-- Where the output of a formula is drawn. -/
def rootPosition : Position := { x := 350, y := 150 }

/-- How far an operand is drawn to the left of its operator. -/
def operandShift : Int := 100

/-- How far the two operands of a binary operator are drawn above and below it. -/
def operandSpread : Int := 40

/-- Connect an operand to an input slot; a wire that is refused is left out. -/
def wire (c : Circuit) (operand gate : GateId) (slot : Nat) : Circuit :=
  match c.connect operand gate slot with
  | .ok connected => connected
  | .error _ => c

/-- Add the gates of a formula, its output drawn at the grid crossing nearest to a point, and
answer the output. The wires of a gate are added after all wires of its operands. -/
def addFormulaAt (c : Circuit) : Formula → (x y : Int) → GateId × Circuit
  | .var letter, x, y => c.addGate (.var letter) (.snapped x y)
  | .not f, x, y =>
    let (gate, c) := c.addGate .not (.snapped x y)
    let (operand, c) := c.addFormulaAt f (x - operandShift) y
    (gate, c.wire operand gate 0)
  | .binary op f g, x, y =>
    let (gate, c) := c.addGate (.binary op) (.snapped x y)
    let (left, c) := c.addFormulaAt f (x - operandShift) (y - operandSpread)
    let (right, c) := c.addFormulaAt g (x - operandShift) (y + operandSpread)
    (gate, (c.wire left gate 0).wire right gate 1)

/-- Add the gates of a formula, and answer its output. -/
def addFormula (c : Circuit) (f : Formula) : GateId × Circuit :=
  c.addFormulaAt f rootPosition.x rootPosition.y

/-- Add the gates of several formulas, and answer their outputs. -/
def addFormulas (c : Circuit) : List Formula → List GateId × Circuit
  | [] => ([], c)
  | f :: rest =>
    let (root, c) := c.addFormula f
    let (roots, c) := c.addFormulas rest
    (root :: roots, c)

/-- The circuit of a formula. -/
def ofFormula (f : Formula) : Circuit := (empty.addFormula f).2

/-- The circuit of a text. -/
def compile (text : String) (limits : Limits) : Except Formula.SyntaxError Circuit :=
  (Formula.parse text limits).map ofFormula

end LogicCircuit.Circuit
