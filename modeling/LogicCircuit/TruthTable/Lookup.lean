import LogicCircuit.TruthTable.Basic

/-!
# Lookup tables

A function of `k` bits as one number of `2 ^ k` binary digits. Digit `m` is the value where
variable `j` is digit `j` of `m`, so variable zero is the lowest digit here, while the first
letter of a truth table is the highest one: the two numberings are bit reversals of each other.

The layout is a convention taken over from the library of lookup tables that the tables are handed
to, which is not part of this project: a table of `k` variables has `2 ^ k` digits, each of which
can be set by itself, variable zero is the lowest digit of an argument, and the written form has
one hexadecimal digit for four values, the values at the greatest arguments first, and one digit for
fewer than four values.
-/

namespace LogicCircuit

/-- A function of some bits. -/
structure LookupTable where
  arity : Nat
  digits : Nat := 0
  deriving DecidableEq, Repr

namespace LookupTable

/-- The value at an argument. -/
def get (t : LookupTable) (m : Nat) : Bool := t.digits.testBit m

/-- Change the value at an argument. -/
def set (t : LookupTable) (m : Nat) (b : Bool) : LookupTable :=
  if t.get m = b then t else { t with digits := t.digits ^^^ 1 <<< m }

/-- The written form: hexadecimal digits, the most significant one first. -/
def hex (t : LookupTable) : String :=
  String.ofList ((List.range (max 1 ((1 <<< t.arity) / 4))).reverse.map fun i =>
    Nat.digitChar ((t.digits >>> (4 * i)) % 16))

@[simp] theorem get_set (t : LookupTable) (m : Nat) (b : Bool) (n : Nat) :
    (t.set m b).get n = if m = n then b else t.get n := by
  unfold set get
  split <;> rename_i h
  · split <;> simp_all
  · by_cases hm : m = n
    · subst hm
      cases b <;> simp_all [Nat.testBit_xor, Nat.one_shiftLeft, Nat.testBit_two_pow_self]
    · simp [Nat.testBit_xor, Nat.one_shiftLeft, Nat.testBit_two_pow_of_ne hm, hm]

end LookupTable

/-- The `k` lowest binary digits of a number in reverse. -/
def reverseDigits : Nat → Nat → Nat
  | 0, _ => 0
  | k + 1, n => (if n.testBit 0 then 1 <<< k else 0) + reverseDigits k (n / 2)

/-- The reversed number is the sum of `1 <<< j` over the `j` below `k` for which digit `k - 1 - j`
of the number is one: these are the variables that are one in a row of the table. -/
theorem reverseDigits_eq_sum (k n : Nat) :
    reverseDigits k n =
      (((List.range k).filter fun j => n.testBit (k - 1 - j)).map (1 <<< ·)).foldl (· + ·) 0 := by
  induction k generalizing n with
  | zero => rfl
  | succ k ih =>
    have hrest : (List.range k).filter (fun j => n.testBit (k + 1 - 1 - j)) =
        (List.range k).filter fun j => (n / 2).testBit (k - 1 - j) := by
      refine List.filter_congr fun j hj => ?_
      have hlt : j < k := List.mem_range.mp hj
      have hindex : k + 1 - 1 - j = (k - 1 - j) + 1 := by omega
      rw [hindex, Nat.testBit_succ]
    have hlast : n.testBit (k + 1 - 1 - k) = n.testBit 0 := by
      rw [Nat.add_sub_cancel, Nat.sub_self]
    rw [reverseDigits, List.range_succ, List.filter_append, List.map_append, List.foldl_append,
      hrest, ← ih, List.filter_cons, hlast]
    cases n.testBit 0 <;> simp [Nat.add_comm]

/-- An output as a lookup table, unless it does not exist or the table has no rows. An unset
output counts as zero. -/
def TruthTable.lookup? (t : TruthTable) (output : Nat) : Option LookupTable :=
  if output < t.sinks.length && !t.rows.isEmpty then
    let k := t.letters.length
    some ((t.column output).zipIdx.foldl
      (fun l (v, i) => l.set (reverseDigits k i) (v == .known true)) { arity := k })
  else none

end LogicCircuit
