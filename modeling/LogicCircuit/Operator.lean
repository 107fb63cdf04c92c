import LogicCircuit.Value

/-!
# Binary operators

The six two-input operators, their keywords, and their two binding strengths: `AND` and `NAND`
bind tighter than the other four.
-/

namespace LogicCircuit

/-- A two-input operator. -/
inductive Operator where
  | and | nand | or | nor | xor | xnor
  deriving DecidableEq, Repr

namespace Operator

/-- All operators. -/
def all : List Operator := [and, nand, or, nor, xor, xnor]

/-- The operator on bits. -/
def apply : Operator → Bool → Bool → Bool
  | and, a, b => a && b
  | nand, a, b => !(a && b)
  | or, a, b => a || b
  | nor, a, b => !(a || b)
  | xor, a, b => a ^^ b
  | xnor, a, b => !(a ^^ b)

/-- The operator on signals: an unset operand blocks the result, whatever the other one is. -/
def combine (op : Operator) : Value → Value → Value
  | .known a, .known b => .known (op.apply a b)
  | _, _ => .unset

/-- The letters of the keyword. -/
def letters : Operator → List Char
  | and => ['A', 'N', 'D']
  | nand => ['N', 'A', 'N', 'D']
  | or => ['O', 'R']
  | nor => ['N', 'O', 'R']
  | xor => ['X', 'O', 'R']
  | xnor => ['X', 'N', 'O', 'R']

/-- The keyword, as it stands in formulas and files. -/
def keyword (op : Operator) : String := String.ofList op.letters

/-- The operator with this keyword. -/
def ofKeyword? (word : String) : Option Operator := all.find? (·.keyword = word)

/-- Whether the operator belongs to the tight tier, that of products. -/
def isProduct : Operator → Bool
  | and | nand => true
  | or | nor | xor | xnor => false

@[simp] theorem mem_all (op : Operator) : op ∈ all := by cases op <;> simp [all]

@[simp] theorem combine_unset_left (op : Operator) (v : Value) : op.combine .unset v = .unset := rfl

@[simp] theorem combine_unset_right (op : Operator) (v : Value) : op.combine v .unset = .unset := by
  cases v <;> rfl

@[simp] theorem combine_known (op : Operator) (a b : Bool) :
    op.combine (.known a) (.known b) = .known (op.apply a b) := rfl

theorem letters_injective {a b : Operator} (h : a.letters = b.letters) : a = b := by
  cases a <;> cases b <;> simp_all [letters]

end Operator

end LogicCircuit
