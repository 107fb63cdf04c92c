/-!
# Limits

Formulas come from users and tables double with every letter, so both are bounded. Going over a
limit is an error, never a truncation.
-/

namespace LogicCircuit

/-- The bounds on what is read and tabulated. -/
structure Limits where
  /-- Greatest nesting of a formula, and greatest height of its tree. -/
  depth : Nat := 256
  /-- Greatest number of distinct letters of a table. -/
  tableLetters : Nat := 16
  deriving DecidableEq, Repr, Inhabited

/-- Bounds that let every letter of the alphabet into a table. -/
def Limits.permissive : Limits := { depth := 1024, tableLetters := 26 }

end LogicCircuit
