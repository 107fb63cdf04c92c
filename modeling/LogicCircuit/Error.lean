import LogicCircuit.FileStore.Error
import LogicCircuit.Formula.Error
import LogicCircuit.TruthTable.Basic

/-!
# Errors

Any error that a session or a command may end with.
-/

namespace LogicCircuit

/-- Any error. -/
inductive Error where
  | formula (error : Formula.SyntaxError)
  | evaluation (error : LoopError)
  | circuit (error : CircuitError)
  /-- A table over more letters than the limit allows. -/
  | tableTooLarge (letters limit : Nat)
  | file (error : FileError)
  deriving DecidableEq, Repr

/-- A table error as an error. -/
def Error.ofTable : TableError → Error
  | .tooLarge letters limit => .tableTooLarge letters limit
  | .loop e => .evaluation e

/-- The wording of an error. -/
def Error.message : Error → String
  | formula e => e.message
  | evaluation e => e.message
  | circuit e => e.message
  | tableTooLarge letters limit => (TableError.tooLarge letters limit).message
  | file e => "io error: " ++ e.message

end LogicCircuit
