import LogicCircuit.Assignment
import LogicCircuit.Operator

/-!
# Formulas

Trees of negations and binary operators over letters, with their measures, their letters, their
value under an assignment, and their fully parenthesised written form.
-/

namespace LogicCircuit

/-- A Boolean formula. -/
inductive Formula where
  | var (letter : Char)
  | not (operand : Formula)
  | binary (op : Operator) (left right : Formula)
  deriving DecidableEq, Repr

namespace Formula

/-- Number of nodes on the longest way from the root to a letter. -/
def height : Formula → Nat
  | var _ => 1
  | not f => f.height + 1
  | binary _ f g => max f.height g.height + 1

/-- Number of nodes. -/
def size : Formula → Nat
  | var _ => 1
  | not f => f.size + 1
  | binary _ f g => f.size + g.size + 1

/-- The letters at the leaves, from left to right. -/
def leaves : Formula → List Char
  | var c => [c]
  | not f => f.leaves
  | binary _ f g => f.leaves ++ g.leaves

/-- The distinct letters, in the order of their first appearance. -/
def letters (f : Formula) : List Char := f.leaves.eraseDups

/-- The value under an assignment; a letter that is not assigned is unset. -/
def value (s : Assignment) : Formula → Value
  | var c => s.value c
  | not f => (f.value s).complement
  | binary op f g => op.combine (f.value s) (g.value s)

/-- The written form: every binary operator stands in parentheses. -/
def text : Formula → String
  | var c => c.toString
  | not f => "!" ++ f.text
  | binary op f g => "(" ++ f.text ++ " " ++ op.keyword ++ " " ++ g.text ++ ")"

@[simp] theorem height_pos (f : Formula) : 0 < f.height := by cases f <;> simp [height]

@[simp] theorem size_pos (f : Formula) : 0 < f.size := by cases f <;> simp [size]

@[simp] theorem mem_letters {f : Formula} {c : Char} : c ∈ f.letters ↔ c ∈ f.leaves := by
  simp [letters]

end Formula

end LogicCircuit
