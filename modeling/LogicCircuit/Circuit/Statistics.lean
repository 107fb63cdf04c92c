import LogicCircuit.Circuit.Order
import LogicCircuit.Circuit.Registry
import LogicCircuit.Text.Lines

/-!
# Statistics

How many gates of each kind a circuit has, how many slots are open, and how long its longest
dependency path is.
-/

namespace LogicCircuit

/-- Numbers that describe a circuit. -/
structure Statistics where
  letters : Nat
  letterGates : Nat
  sinks : Nat
  wires : Nat
  /-- Number of gates of each binary operator. -/
  binary : Operator → Nat
  inverters : Nat
  constants : Nat
  openSlots : Nat
  /-- Number of wires on the longest dependency path, unless there is a loop. -/
  depth? : Option Nat

namespace Circuit

/-- Number of gates of a kind that satisfies a test. -/
def countKind (c : Circuit) (p : GateKind → Bool) : Nat := c.gates.countP (p ·.kind)

/-- The level of a gate, given the levels of the gates it depends on: one more than the highest of
them, and zero without inputs. -/
def levelOver (levels : List (GateId × Nat)) (inputs : List GateId) : Nat :=
  inputs.foldl (fun level id => max level ((levels.lookup id).getD 0 + 1)) 0

/-- The levels of the gates of a dependency order, latest gate first. -/
def levels (c : Circuit) (order : List GateId) : List (GateId × Nat) :=
  order.foldl (fun levels id =>
    (id, levelOver levels (((c.gate? id).map (·.inputs)).getD [])) :: levels) []

/-- Number of wires on the longest dependency path, unless there is a loop. -/
def depth? (c : Circuit) : Option Nat :=
  match c.order with
  | .ok order => some ((c.levels order).foldl (fun depth e => max depth e.2) 0)
  | .error _ => none

/-- The statistics of a circuit. -/
def statistics (c : Circuit) : Statistics where
  letters := c.letters.length
  letterGates := c.countKind (·.letter?.isSome)
  sinks := c.sinks.length
  wires := c.wires.length
  binary op := c.countKind (· == .binary op)
  inverters := c.countKind (· == .not)
  constants := c.countKind fun k => k == .const false || k == .const true
  openSlots := (c.gates.flatMap (·.slots)).countP (·.isNone)
  depth? := c.depth?

end Circuit

namespace Statistics

/-- Number of gates that compute something from inputs. -/
def logicGates (s : Statistics) : Nat :=
  Operator.all.foldr (fun op count => s.binary op + count) s.inverters

/-- Number of all gates. -/
def gates (s : Statistics) : Nat := s.logicGates + s.letterGates + s.constants

/-- The name of an operator in the statistics. -/
def operatorName : Operator → String
  | .and => "And"
  | .nand => "Nand"
  | .or => "Or"
  | .nor => "Nor"
  | .xor => "Xor"
  | .xnor => "Xnor"

/-- A line for a number, unless it is zero. -/
def countLine (name : String) (count : Nat) : List String :=
  if count = 0 then [] else [s!"  {name}: {count}"]

/-- The lines of the statistics. Kinds without gates are left out. -/
def lines (s : Statistics) : List String :=
  ["Stats:",
    s!"  Variables: {s.letters} ({s.letterGates} gates)",
    s!"  Outputs: {s.sinks}",
    s!"  Gates: {s.gates}",
    s!"  Wires: {s.wires}",
    match s.depth? with
    | some depth => s!"  Depth: {depth}"
    | none => "  Depth: combinational loop"] ++
  Operator.all.flatMap (fun op => countLine (operatorName op) (s.binary op)) ++
  countLine "Not" s.inverters ++ countLine "Const" s.constants ++
  countLine "Unconnected inputs" s.openSlots

/-- The written form. -/
def text (s : Statistics) : String := Text.unlines s.lines

end Statistics

end LogicCircuit
