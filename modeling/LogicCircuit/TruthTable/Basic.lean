import LogicCircuit.Circuit.Inputs
import LogicCircuit.Circuit.Registry
import LogicCircuit.Evaluation
import LogicCircuit.Limits
import LogicCircuit.Text.Lines

/-!
# Truth tables

The outputs of a circuit for every assignment of its letters. The rows ascend as binary numbers,
the first letter being the highest digit. Tabulating a circuit uses its inputs, so they are unset
afterwards, whether the table is complete or a loop stopped it.

Main definitions:

* `Circuit.truthTable`: the table of a circuit.
* `Circuit.tabulate`: the table, the progress reports on the way, and the circuit afterwards.
-/

namespace LogicCircuit

/-- One assignment of the letters and the outputs for it. -/
structure Row where
  inputs : List Bool
  outputs : List Value
  deriving DecidableEq, Repr

/-- The outputs of a circuit for every assignment of its letters. -/
structure TruthTable where
  letters : List Char
  sinks : List GateId
  rows : List Row := []
  deriving DecidableEq, Repr

/-- Why there is no table. -/
inductive TableError where
  /-- More letters than the limit allows. -/
  | tooLarge (letters limit : Nat)
  /-- The circuit has a loop. -/
  | loop (error : LoopError)
  deriving DecidableEq, Repr

/-- The wording of a table error. -/
def TableError.message : TableError → String
  | tooLarge letters limit =>
    s!"truth table over {letters} variables exceeds the limit of {limit}"
  | loop e => e.message

namespace TruthTable

/-- The values of an output, row by row; unset if there is no such output. -/
def column (t : TruthTable) (output : Nat) : List Value :=
  t.rows.map (·.outputs.getD output .unset)

/-- The line of the letters and outputs. -/
def headLine (t : TruthTable) : String :=
  String.join (t.letters.map fun c => String.ofList [c, ' ']) ++ "|" ++
    String.join (t.sinks.map fun id => " " ++ GateId.text id)

/-- The line of a row. -/
def rowLine (r : Row) : String :=
  String.join (r.inputs.map fun b => String.ofList [Value.digit b, ' ']) ++ "|" ++
    String.join (r.outputs.map fun v => String.ofList [' ', v.symbol])

/-- The written form. -/
def text (t : TruthTable) : String := Text.unlines (t.headLine :: t.rows.map rowLine)

end TruthTable

namespace Circuit

/-- The row of a number, with the gates computed in the given order. -/
def row (c : Circuit) (gates : List Gate) (letters : List Char) (n : Nat) : Row :=
  let s := Assignment.ofDigits letters n
  { inputs := s.toList.map (·.2), outputs := (c.evaluateAlong gates s).outputs }

/-- The table of a circuit. It has no rows if the circuit has no letters or no outputs. -/
def truthTable (c : Circuit) (limits : Limits) : Except TableError TruthTable :=
  let letters := c.letters
  if limits.tableLetters < letters.length then
    .error (.tooLarge letters.length limits.tableLetters)
  else if letters.isEmpty || c.sinks.isEmpty then
    .ok { letters, sinks := c.sinks }
  else
    match c.plan with
    | .error e => .error (.loop e)
    | .ok gates =>
      .ok {
        letters
        sinks := c.sinks
        rows := (List.range (Assignment.count letters)).map (c.row gates letters) }

/-- Whether tabulating a circuit goes through its assignments, so that its inputs are used. -/
def tabulates (c : Circuit) (limits : Limits) : Bool :=
  c.letters.length ≤ limits.tableLetters && !c.letters.isEmpty && !c.sinks.isEmpty

/-- What comes of tabulating a circuit. -/
structure Tabulation where
  table : Except TableError TruthTable
  /-- After each row, the number of rows done and the number of all rows. -/
  reports : List (Nat × Nat)
  circuit : Circuit

/-- Tabulate a circuit: its inputs are unset afterwards if its assignments were gone through. -/
def tabulate (c : Circuit) (limits : Limits) : Tabulation :=
  let table := c.truthTable limits
  { table
    reports :=
      match table with
      | .ok t =>
        let total := t.rows.length
        (List.range total).map fun i => (i + 1, total)
      | .error _ => []
    circuit := if c.tabulates limits then c.resetInputs else c }

end Circuit

end LogicCircuit
