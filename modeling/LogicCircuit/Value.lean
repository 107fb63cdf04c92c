/-!
# Signal values

A signal carries a bit or is unset. Unset is the absence of knowledge, not a third level: every
operation here answers unset as soon as one of its arguments is unset.
-/

namespace LogicCircuit

/-- The value of a signal. -/
inductive Value where
  | unset
  | known (bit : Bool)
  deriving DecidableEq, Repr, Inhabited

namespace Value

/-- The value of a signal that may have been given a bit. -/
def ofBit? : Option Bool → Value
  | none => unset
  | some b => known b

/-- The bit of a signal, if it carries one. -/
def bit? : Value → Option Bool
  | unset => none
  | known b => some b

/-- Whether the signal carries a bit. -/
def isKnown : Value → Bool
  | unset => false
  | known _ => true

/-- The complement, unset for an unset signal. -/
def complement : Value → Value
  | unset => unset
  | known b => known !b

/-- A bit as a digit. -/
def digit (b : Bool) : Char := if b then '1' else '0'

/-- The one-character form: a digit, or a dash for an unset signal. -/
def symbol : Value → Char
  | unset => '-'
  | known b => digit b

/-- The written form of a value. -/
def text (v : Value) : String := v.symbol.toString

@[simp] theorem bit?_ofBit? (b : Option Bool) : (ofBit? b).bit? = b := by cases b <;> rfl

@[simp] theorem ofBit?_bit? (v : Value) : ofBit? v.bit? = v := by cases v <;> rfl

@[simp] theorem complement_complement (v : Value) : v.complement.complement = v := by
  cases v <;> simp [complement]

end Value

end LogicCircuit
