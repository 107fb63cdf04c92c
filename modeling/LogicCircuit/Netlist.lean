import LogicCircuit.Circuit.Order
import LogicCircuit.Circuit.Registry
import LogicCircuit.Text.Lines

/-!
# Netlists

A complete circuit without loops as a netlist in the `.bench` format: the letters are its inputs,
the outputs of the circuit its outputs, and every gate defines a signal. Behind two lines of
comment stands for instance:

    INPUT(A)
    INPUT(B)

    OUTPUT(x0)

    x0 = NAND(x1, x2)
    x1 = BUF(A)
    x2 = NOT(x3)
    x3 = BUF(B)

Main definitions:

* `Netlist.text`: the text of a netlist.
* `Circuit.netlist`: the netlist of a circuit, or why it has none.
-/

namespace LogicCircuit

/-- What defines a signal of a netlist. -/
inductive Definition where
  /-- The signal follows an input. -/
  | buffer (letter : Char)
  /-- The signal is constant. -/
  | const (bit : Bool)
  /-- The signal is a function, given by its name, of other signals. -/
  | apply (name : String) (inputs : List GateId)
  deriving DecidableEq, Repr

/-- A netlist. -/
structure Netlist where
  inputs : List Char
  outputs : List GateId
  definitions : List (GateId × Definition)
  deriving DecidableEq, Repr

namespace Netlist

/-- The right side of a definition. -/
def definitionText : Definition → String
  | .buffer letter => s!"BUF({letter})"
  | .const false => "gnd"
  | .const true => "vdd"
  | .apply name inputs => name ++ "(" ++ ", ".intercalate (inputs.map GateId.text) ++ ")"

/-- The lines of a netlist. -/
def lines (n : Netlist) : List String :=
  ["# .bench (ISCAS) file", "# Generated by boolcirc"] ++
  n.inputs.map (fun letter => s!"INPUT({letter})") ++ [""] ++
  n.outputs.map (fun id => s!"OUTPUT({GateId.text id})") ++ [""] ++
  n.definitions.map fun (id, d) => s!"{GateId.text id} = {definitionText d}"

/-- The text of a netlist. -/
def text (n : Netlist) : String := Text.unlines n.lines

end Netlist

/-- What defines the signal of a gate. -/
def Gate.definition (g : Gate) : Definition :=
  match g.kind with
  | .var letter => .buffer letter
  | .const b => .const b
  | .not | .binary _ => .apply g.kind.text g.inputs

namespace Circuit

/-- The first empty slot, in the order of the gates. -/
def openSlot? (c : Circuit) : Option (GateId × Nat) :=
  c.gates.findSome? fun g => g.openSlot?.map fun slot => (g.id, slot)

/-- The netlist of a circuit. Fails if a slot is empty, and then if there is a loop. -/
def netlist (c : Circuit) : Except CircuitError Netlist :=
  match c.openSlot? with
  | some (id, slot) => .error (.openSlot id slot)
  | none =>
    match c.checkAcyclic with
    | .error e => .error (.loop e)
    | .ok _ =>
      .ok {
        inputs := c.letters
        outputs := c.sinks
        definitions := c.gates.map fun g => (g.id, g.definition) }

end Circuit

end LogicCircuit
