import Mathlib
import LogicCircuit.Assignment

/-!
# Assignments as binary numbers

`Assignment.ofDigits` gives some letters the binary digits of a number, the first letter the
highest one. Numbers below `2 ^ k` and lists of `k` digits correspond to each other, so counting
goes through all assignments of `k` letters, in ascending order of their digits.

Results:
* `binaryDigits_binary`, `binary_binaryDigits`: the correspondence of digits and numbers.
* `map_get?_ofDigits`: what the assignment of a number gives to its letters.
* `get?_ofDigits_binary_bits`: every assignment of the letters is met in counting.
-/

namespace LogicCircuit

/-! ## Digits -/

/-- The lowest `k` binary digits of a number, the highest one of them first. -/
def binaryDigits : Nat → Nat → List Bool
  | 0, _ => []
  | k + 1, n => n.testBit k :: binaryDigits k n

/-- The number with the given binary digits, the highest one first. -/
def binary : List Bool → Nat
  | [] => 0
  | b :: rest => 2 ^ rest.length * b.toNat + binary rest

@[simp] theorem length_binaryDigits (k n : Nat) : (binaryDigits k n).length = k := by
  induction k with
  | zero => rfl
  | succ k ih => rw [binaryDigits, List.length_cons, ih]

theorem binaryDigits_congr {k n m : Nat} (h : ∀ j < k, n.testBit j = m.testBit j) :
    binaryDigits k n = binaryDigits k m := by
  induction k with
  | zero => rfl
  | succ k ih =>
    rw [binaryDigits, binaryDigits, h k (by omega), ih fun j hj => h j (by omega)]

theorem binary_lt (bits : List Bool) : binary bits < 2 ^ bits.length := by
  induction bits with
  | nil => exact Nat.one_pos
  | cons b rest ih =>
    have hb : b.toNat ≤ 1 := b.toNat_le
    rw [binary, List.length_cons, pow_succ]
    nlinarith

/-- A list of digits is that of its number. -/
theorem binaryDigits_binary (bits : List Bool) : binaryDigits bits.length (binary bits) = bits := by
  induction bits with
  | nil => rfl
  | cons b rest ih =>
    have hbit : ∀ j, (binary (b :: rest)).testBit j =
        if j < rest.length then (binary rest).testBit j else b.toNat.testBit (j - rest.length) :=
      fun j => Nat.testBit_two_pow_mul_add b.toNat (binary_lt rest) j
    have hlow : binaryDigits rest.length (binary (b :: rest)) = rest := by
      rw [← binaryDigits_congr fun j hj => ((hbit j).trans (if_pos hj)).symm, ih]
    rw [List.length_cons, binaryDigits, hlow, hbit, if_neg (by omega), Nat.sub_self]
    cases b <;> rfl

theorem binary_binaryDigits_mod (k n : Nat) : binary (binaryDigits k n) = n % 2 ^ k := by
  induction k with
  | zero => rw [pow_zero, Nat.mod_one]; rfl
  | succ k ih =>
    rw [binaryDigits, binary, length_binaryDigits, ih, Nat.toNat_testBit, Nat.mod_pow_succ,
      add_comm]

/-- A number is that of its digits. -/
theorem binary_binaryDigits {k n : Nat} (h : n < 2 ^ k) : binary (binaryDigits k n) = n := by
  rw [binary_binaryDigits_mod, Nat.mod_eq_of_lt h]

/-! ## The assignment of a number -/

namespace Assignment

theorem map_fst_digitEntries (letters : List Char) (n : Nat) :
    (digitEntries letters n).map (·.1) = letters.map Char.toUpper := by
  induction letters with
  | nil => rfl
  | cons letter rest ih => rw [digitEntries, List.map_cons, List.map_cons, ih]

theorem map_snd_digitEntries (letters : List Char) (n : Nat) :
    (digitEntries letters n).map (·.2) = binaryDigits letters.length n := by
  induction letters with
  | nil => rfl
  | cons letter rest ih => rw [digitEntries, List.map_cons, ih, List.length_cons, binaryDigits]

theorem count_eq (letters : List Char) : count letters = 2 ^ letters.length := by
  rw [count, Nat.one_shiftLeft]

/-- Different capitals get the digits in their order. -/
theorem map_get?_ofDigits {letters : List Char} (hn : letters.Nodup)
    (hu : ∀ l ∈ letters, l.toUpper = l) (n : Nat) :
    letters.map (ofDigits letters n).get? = (binaryDigits letters.length n).map some := by
  induction letters with
  | nil => rfl
  | cons letter rest ih =>
    have hletter := hu letter List.mem_cons_self
    have hrest : ∀ l ∈ rest, l.toUpper = l := fun l hl => hu l (List.mem_cons_of_mem _ hl)
    have hskip : ∀ l ∈ rest,
        (ofDigits (letter :: rest) n).get? l = (ofDigits rest n).get? l := by
      intro l hl
      have hne : l ≠ letter := fun he => (List.nodup_cons.mp hn).1 (he ▸ hl)
      simp only [get?, ofDigits, digitEntries, List.lookup_cons, hletter, hrest l hl,
        beq_eq_false_iff_ne.mpr hne]
    rw [List.map_cons, List.map_congr_left hskip, ih (List.nodup_cons.mp hn).2 hrest,
      List.length_cons, binaryDigits, List.map_cons]
    simp only [get?, ofDigits, digitEntries, List.lookup_cons, hletter, BEq.rfl]

/-- The bits that an assignment gives to some letters; a letter that is not assigned counts as
zero. -/
def bits (s : Assignment) (letters : List Char) : List Bool :=
  letters.map fun l => (s.get? l).getD false

/-- The assignment gives a bit to each of the letters. -/
def Covers (s : Assignment) (letters : List Char) : Prop :=
  ∀ l ∈ letters, (s.get? l).isSome = true

@[simp] theorem length_bits (s : Assignment) (letters : List Char) :
    (s.bits letters).length = letters.length := List.length_map _

theorem map_get?_eq_bits {s : Assignment} {letters : List Char} (h : s.Covers letters) :
    letters.map s.get? = (s.bits letters).map some := by
  rw [bits, List.map_map]
  refine List.map_congr_left fun l hl => ?_
  obtain ⟨b, hb⟩ := Option.isSome_iff_exists.mp (h l hl)
  simp [hb]

theorem bits_ofDigits {letters : List Char} (hn : letters.Nodup)
    (hu : ∀ l ∈ letters, l.toUpper = l) (n : Nat) :
    (ofDigits letters n).bits letters = binaryDigits letters.length n := by
  have h := congrArg (List.map fun b : Option Bool => b.getD false) (map_get?_ofDigits hn hu n)
  rw [List.map_map, List.map_map] at h
  rw [bits]
  exact h.trans (List.map_id _)

theorem covers_ofDigits {letters : List Char} (hn : letters.Nodup)
    (hu : ∀ l ∈ letters, l.toUpper = l) (n : Nat) : (ofDigits letters n).Covers letters := by
  intro l hl
  have hmem : (ofDigits letters n).get? l ∈ (binaryDigits letters.length n).map some :=
    map_get?_ofDigits hn hu n ▸ List.mem_map_of_mem hl
  obtain ⟨b, -, hb⟩ := List.mem_map.mp hmem
  rw [← hb]
  rfl

/-- An assignment that agrees with the digits of a number agrees with the assignment of that
number. -/
theorem get?_eq_get?_ofDigits {letters : List Char} (hn : letters.Nodup)
    (hu : ∀ l ∈ letters, l.toUpper = l) {s : Assignment} {n : Nat}
    (h : letters.map s.get? = (binaryDigits letters.length n).map some) :
    ∀ l ∈ letters, s.get? l = (ofDigits letters n).get? l := by
  rw [← map_get?_ofDigits hn hu n] at h
  exact List.map_inj_left.mp h

/-- Every assignment of the letters is met in counting. -/
theorem get?_ofDigits_binary_bits {letters : List Char} (hn : letters.Nodup)
    (hu : ∀ l ∈ letters, l.toUpper = l) {s : Assignment} (h : s.Covers letters) :
    ∀ l ∈ letters, s.get? l = (ofDigits letters (binary (s.bits letters))).get? l := by
  refine get?_eq_get?_ofDigits hn hu ?_
  have hd := binaryDigits_binary (s.bits letters)
  rw [length_bits] at hd
  rw [hd, map_get?_eq_bits h]

end Assignment

end LogicCircuit
