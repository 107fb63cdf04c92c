/-!
# Lines

Every text that is written out line by line ends each line, the last one included.
-/

namespace LogicCircuit.Text

/-- The lines one after the other, each with its line end. -/
def unlines (lines : List String) : String := String.join (lines.map (· ++ "\n"))

@[simp] theorem unlines_nil : unlines [] = "" := rfl

end LogicCircuit.Text
