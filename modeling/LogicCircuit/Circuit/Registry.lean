import LogicCircuit.Circuit.Basic

/-!
# Registry of letters

Which gates stand for which letter. The letters are ordered by their first gate.
-/

namespace LogicCircuit

/-- The letters of a circuit with their gates. -/
structure Registry where
  entries : List (Char × List GateId) := []
  deriving DecidableEq, Repr

/-- The distinct letters of a circuit, by their first gate. -/
def Circuit.letters (c : Circuit) : List Char := (c.gates.filterMap (·.kind.letter?)).eraseDups

/-- The gates of a circuit that stand for exactly this letter. -/
def Circuit.gatesOf (c : Circuit) (letter : Char) : List GateId :=
  (c.gates.filter (·.kind.letter? = some letter)).map (·.id)

/-- The registry of a circuit. -/
def Circuit.registry (c : Circuit) : Registry :=
  ⟨c.letters.map fun letter => (letter, c.gatesOf letter)⟩

namespace Registry

/-- Number of letters. -/
def size (r : Registry) : Nat := r.entries.length

/-- The letters. -/
def letters (r : Registry) : List Char := r.entries.map (·.1)

/-- The gates of a letter, in either case. -/
def gates (r : Registry) (letter : Char) : List GateId :=
  (r.entries.lookup letter.toUpper).getD []

/-- The rank of a letter, in either case. -/
def position? (r : Registry) (letter : Char) : Option Nat :=
  r.letters.findIdx? (· == letter.toUpper)

end Registry

/-- The letters of one list, then those that only the other one has. -/
def mergeLetters (a b : List Char) : List Char := (a ++ b).eraseDups

@[simp] theorem Circuit.letters_registry (c : Circuit) : c.registry.letters = c.letters := by
  simp [Registry.letters, Circuit.registry, Function.comp_def]

@[simp] theorem mem_mergeLetters {a b : List Char} {x : Char} :
    x ∈ mergeLetters a b ↔ x ∈ a ∨ x ∈ b := by
  simp [mergeLetters]

end LogicCircuit
