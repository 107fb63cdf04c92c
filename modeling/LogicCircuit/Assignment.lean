import LogicCircuit.Value

/-!
# Assignments

An assignment gives bits to letters. It keeps the order in which the letters were first assigned,
and does not tell the two cases of an ASCII letter apart: every letter is stored as a capital.
-/

namespace LogicCircuit

/-- Bits given to letters, in the order of assignment. -/
structure Assignment where
  entries : List (Char × Bool) := []
  deriving DecidableEq, Repr, Inhabited

namespace Assignment

/-- The bit of a letter, if it is assigned. -/
def get? (s : Assignment) (letter : Char) : Option Bool := s.entries.lookup letter.toUpper

/-- The value of a letter, unset if it is not assigned. -/
def value (s : Assignment) (letter : Char) : Value := .ofBit? (s.get? letter)

/-- The entries with the first one of a letter replaced, or a new one at the end. -/
def setEntry (letter : Char) (bit : Bool) : List (Char × Bool) → List (Char × Bool)
  | [] => [(letter, bit)]
  | e :: rest => if e.1 = letter then (letter, bit) :: rest else e :: setEntry letter bit rest

/-- Assign a letter; one that is assigned already keeps its place. -/
def set (s : Assignment) (letter : Char) (bit : Bool) : Assignment :=
  ⟨setEntry letter.toUpper bit s.entries⟩

/-- Take the bit of a letter away. -/
def unset (s : Assignment) (letter : Char) : Assignment :=
  ⟨s.entries.filter (·.1 ≠ letter.toUpper)⟩

/-- Assign the letters of a list, one after the other. -/
def ofList (pairs : List (Char × Bool)) : Assignment :=
  pairs.foldl (fun s p => s.set p.1 p.2) {}

/-- The entries for some letters from the binary digits of a number: the last letter takes the
lowest digit. -/
def digitEntries : List Char → Nat → List (Char × Bool)
  | [], _ => []
  | letter :: rest, n => (letter.toUpper, n.testBit rest.length) :: digitEntries rest n

/-- Number of assignments of some letters. -/
def count (letters : List Char) : Nat := 1 <<< letters.length

/-- Give the letters the binary digits of a number, the first letter the highest one. -/
def ofDigits (letters : List Char) (n : Nat) : Assignment := ⟨digitEntries letters n⟩

/-- The assigned letters with their bits. -/
def toList (s : Assignment) : List (Char × Bool) := s.entries

/-- Number of assigned letters. -/
def size (s : Assignment) : Nat := s.entries.length

/-- Whether no letter is assigned. -/
def isEmpty (s : Assignment) : Bool := s.entries.isEmpty

/-- The written form, `A=0 B=1`. -/
def text (s : Assignment) : String :=
  " ".intercalate (s.entries.map fun e => String.ofList [e.1, '=', Value.digit e.2])

@[simp] theorem get?_empty (letter : Char) : get? {} letter = none := rfl

@[simp] theorem length_digitEntries (letters : List Char) (n : Nat) :
    (digitEntries letters n).length = letters.length := by
  induction letters with
  | nil => rfl
  | cons _ _ ih => simp [digitEntries, ih]

end Assignment

end LogicCircuit
