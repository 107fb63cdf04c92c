import LogicCircuit.TruthTable.Basic

/-!
# Tables of comma-separated values

The head names the letters, then the output. Each row has the bits of the letters, then the first
output; an unset output is written as a zero:

    A,B,Output
    0,0,0
    0,1,1
    1,0,1
    1,1,0
-/

namespace LogicCircuit.TruthTable

/-- The digit of the first output. -/
def csvOutput (r : Row) : Char := Value.digit (r.outputs.headD .unset == .known true)

/-- The cells of the head. -/
def csvHead (t : TruthTable) : List String := t.letters.map Char.toString ++ ["Output"]

/-- The cells of a row. -/
def csvRow (r : Row) : List String :=
  r.inputs.map (fun b => (Value.digit b).toString) ++ [(csvOutput r).toString]

/-- The table as comma-separated values. -/
def csv (t : TruthTable) : String :=
  Text.unlines ((t.csvHead :: t.rows.map csvRow).map ",".intercalate)

end LogicCircuit.TruthTable
