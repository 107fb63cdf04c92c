import LogicCircuit.TruthTable.Basic

/-!
# Equivalence

Two circuits are compared by their first outputs under every assignment of the letters of both,
the letters of the first circuit first. An unset output only equals an unset output.
-/

namespace LogicCircuit

/-- The first of the numbers `start`, `start + 1`, … that satisfies a test, among the given count
of them. -/
def firstFrom? (p : Nat → Bool) : (start count : Nat) → Option Nat
  | _, 0 => none
  | n, count + 1 => if p n then some n else firstFrom? p (n + 1) count

theorem firstFrom?_eq_none_iff {p : Nat → Bool} {start count : Nat} :
    firstFrom? p start count = none ↔ ∀ i < count, p (start + i) = false := by
  induction count generalizing start with
  | zero => simp [firstFrom?]
  | succ count ih =>
    constructor
    · intro h i hi
      by_cases hp : p start = true
      · simp [firstFrom?, hp] at h
      · simp only [firstFrom?, hp] at h
        cases i with
        | zero => simpa using hp
        | succ i =>
          have := ih.1 h i (by omega)
          rwa [Nat.add_right_comm] at this
    · intro h
      have h0 : p start = false := by simpa using h 0 (by omega)
      simp only [firstFrom?, h0]
      exact ih.2 fun i hi => by
        have := h (i + 1) (by omega)
        rwa [Nat.add_right_comm]

/-- The letters of two circuits, those of the first one first. -/
def Circuit.commonLetters (a b : Circuit) : List Char := mergeLetters a.letters b.letters

/-- The first assignment under which the first outputs of two circuits differ. -/
def Circuit.firstDifference? (a b : Circuit) (limits : Limits) :
    Except TableError (Option Assignment) :=
  let letters := a.commonLetters b
  if limits.tableLetters < letters.length then
    .error (.tooLarge letters.length limits.tableLetters)
  else
    match a.plan, b.plan with
    | .error e, _ => .error (.loop e)
    | .ok _, .error e => .error (.loop e)
    | .ok gatesA, .ok gatesB =>
      let differs (n : Nat) : Bool :=
        let s := Assignment.ofDigits letters n
        (a.evaluateAlong gatesA s).firstOutput != (b.evaluateAlong gatesB s).firstOutput
      .ok ((firstFrom? differs 0 (Assignment.count letters)).map (Assignment.ofDigits letters))

end LogicCircuit
