import LogicCircuit.Proofs.TruthTable.Complete
import LogicCircuit.TruthTable.Lookup

/-!
# Lookup tables of outputs

An output becomes a lookup table row by row: row `i` is written at the argument whose digits are
those of `i` in reverse. Reversal permutes the numbers of `k` digits, so every argument is written
exactly once, and the order of the rows makes no difference.

Results:
* `reverseDigits_eq`: what reversal does to the digits of a number.
* `perm_map_reverseDigits`: reversal permutes the numbers of `k` digits.
* `LookupTable.get_fill_of_mem`, `LookupTable.fill_perm`: what a table filled with entries holds.
* `CompleteTable.get_fill_eq`: the digits of a lookup table are what the circuit computes.
-/

namespace LogicCircuit

/-! ## Reversal of digits -/

theorem getElem_binaryDigits {k n j : Nat} (h : j < (binaryDigits k n).length) :
    (binaryDigits k n)[j] = n.testBit (k - 1 - j) := by
  induction k generalizing j with
  | zero => exact absurd h (Nat.not_lt_zero j)
  | succ k ih =>
    cases j with
    | zero => rfl
    | succ j =>
      have hj : j < (binaryDigits k n).length := Nat.lt_of_succ_lt_succ h
      show (binaryDigits k n)[j] = _
      rw [ih hj]
      congr 1
      omega

/-- Read from behind, the digits stand in the order of their ranks. -/
theorem getElem_reverse_binaryDigits {k n j : Nat} (h : j < (binaryDigits k n).reverse.length) :
    (binaryDigits k n).reverse[j] = n.testBit j := by
  rw [List.length_reverse, length_binaryDigits] at h
  rw [List.getElem_reverse, getElem_binaryDigits, length_binaryDigits]
  congr 1
  omega

theorem reverseDigits_lt (k n : Nat) : reverseDigits k n < 2 ^ k := by
  induction k generalizing n with
  | zero => exact Nat.one_pos
  | succ k ih =>
    have hrest := ih (n / 2)
    rw [reverseDigits, Nat.one_shiftLeft, pow_succ]
    split <;> omega

/-- Digit `j` of the reversed number is digit `k - 1 - j` of the number. -/
theorem testBit_reverseDigits {k j : Nat} (hj : j < k) (n : Nat) :
    (reverseDigits k n).testBit j = n.testBit (k - 1 - j) := by
  induction k generalizing n with
  | zero => exact absurd hj (Nat.not_lt_zero j)
  | succ k ih =>
    have hdecomp : reverseDigits (k + 1) n =
        2 ^ k * (n.testBit 0).toNat + reverseDigits k (n / 2) := by
      rw [reverseDigits, Nat.one_shiftLeft]
      cases n.testBit 0 <;> simp
    rw [hdecomp, Nat.testBit_two_pow_mul_add _ (reverseDigits_lt k (n / 2))]
    split_ifs with hlt
    · rw [ih hlt, Nat.testBit_div_two]
      congr 1
      omega
    · obtain rfl : j = k := by omega
      simp only [Nat.sub_self, Nat.add_sub_cancel]
      cases n.testBit 0 <;> rfl

/-- The digits of the reversed number are those of the number in reverse. -/
theorem binaryDigits_reverseDigits (k n : Nat) :
    binaryDigits k (reverseDigits k n) = (binaryDigits k n).reverse := by
  refine List.ext_getElem (by simp) fun j hj hj' => ?_
  rw [length_binaryDigits] at hj
  rw [getElem_reverse_binaryDigits hj', getElem_binaryDigits, testBit_reverseDigits (by omega)]
  congr 1
  omega

/-- Reversal writes the digits of a number down from behind. -/
theorem reverseDigits_eq (k n : Nat) :
    reverseDigits k n = binary (binaryDigits k n).reverse := by
  rw [← binaryDigits_reverseDigits, binary_binaryDigits (reverseDigits_lt k n)]

/-- Reversing the digits twice changes nothing. -/
theorem reverseDigits_reverseDigits {k n : Nat} (h : n < 2 ^ k) :
    reverseDigits k (reverseDigits k n) = n := by
  rw [reverseDigits_eq, binaryDigits_reverseDigits, List.reverse_reverse, binary_binaryDigits h]

/-- Reversal permutes the numbers of `k` digits. -/
theorem perm_map_reverseDigits (k : Nat) :
    ((List.range (2 ^ k)).map (reverseDigits k)).Perm (List.range (2 ^ k)) := by
  have hinj : ∀ m ∈ List.range (2 ^ k), ∀ n ∈ List.range (2 ^ k),
      reverseDigits k m = reverseDigits k n → m = n := by
    intro m hm n hn h
    rw [← reverseDigits_reverseDigits (List.mem_range.mp hm), h,
      reverseDigits_reverseDigits (List.mem_range.mp hn)]
  have hnodup := List.nodup_range.map_on hinj
  refine (List.perm_ext_iff_of_nodup hnodup List.nodup_range).mpr fun m => ?_
  rw [List.mem_map]
  constructor
  · rintro ⟨n, -, rfl⟩
    exact List.mem_range.mpr (reverseDigits_lt k n)
  · intro hm
    exact ⟨reverseDigits k m, List.mem_range.mpr (reverseDigits_lt k m),
      reverseDigits_reverseDigits (List.mem_range.mp hm)⟩

/-! ## Filling a table -/

namespace LookupTable

/-- The table of a function of `arity` bits that is zero everywhere but where an entry has been
written, the entries being written one after the other. -/
def fill (arity : Nat) (entries : List (Nat × Bool)) : LookupTable :=
  entries.foldl (fun l e => l.set e.1 e.2) { arity }

@[simp] theorem arity_set (l : LookupTable) (m : Nat) (b : Bool) : (l.set m b).arity = l.arity := by
  unfold set
  split <;> rfl

theorem fill_concat (arity : Nat) (entries : List (Nat × Bool)) (e : Nat × Bool) :
    fill arity (entries ++ [e]) = (fill arity entries).set e.1 e.2 := List.foldl_concat ..

@[simp] theorem arity_fill (arity : Nat) (entries : List (Nat × Bool)) :
    (fill arity entries).arity = arity := by
  induction entries using List.reverseRecOn with
  | nil => rfl
  | append_singleton entries e ih => rw [fill_concat, arity_set, ih]

theorem get_fill_of_notMem (arity : Nat) {entries : List (Nat × Bool)} {m : Nat}
    (hm : m ∉ entries.map (·.1)) : (fill arity entries).get m = false := by
  induction entries using List.reverseRecOn with
  | nil => exact Nat.zero_testBit m
  | append_singleton entries e ih =>
    rw [List.map_append, List.mem_append, not_or] at hm
    rw [fill_concat, get_set, if_neg fun he => hm.2 (by simp [he]), ih hm.1]

/-- An argument that one entry is for has the value of that entry. -/
theorem get_fill_of_mem (arity : Nat) {entries : List (Nat × Bool)}
    (hn : (entries.map (·.1)).Nodup) {e : Nat × Bool} (he : e ∈ entries) :
    (fill arity entries).get e.1 = e.2 := by
  induction entries using List.reverseRecOn with
  | nil => exact absurd he List.not_mem_nil
  | append_singleton entries last ih =>
    rw [List.map_append, List.nodup_append] at hn
    rw [fill_concat, get_set]
    rcases List.mem_append.mp he with hmem | hlast
    · have hne : last.1 ≠ e.1 := fun h =>
        hn.2.2 e.1 (List.mem_map_of_mem hmem) last.1 (by simp) h.symm
      rw [if_neg hne, ih hn.1 hmem]
    · rw [List.mem_singleton.mp hlast, if_pos rfl]

/-- The digits beyond the entries are zero. -/
theorem digits_fill_lt {arity n : Nat} {entries : List (Nat × Bool)}
    (h : ∀ m ∈ entries.map (·.1), m < n) : (fill arity entries).digits < 2 ^ n := by
  refine Nat.lt_pow_two_of_testBit _ fun m hm => ?_
  exact get_fill_of_notMem arity fun hmem => absurd (h m hmem) hm.not_gt

theorem ext_get {l l' : LookupTable} (ha : l.arity = l'.arity) (h : ∀ m, l.get m = l'.get m) :
    l = l' := by
  obtain ⟨arity, digits⟩ := l
  obtain ⟨arity', digits'⟩ := l'
  obtain rfl : arity = arity' := ha
  exact congrArg (mk arity) (Nat.eq_of_testBit_eq h)

/-- Writing at different arguments commutes. -/
theorem set_comm (l : LookupTable) {m n : Nat} (hne : m ≠ n) (b b' : Bool) :
    (l.set m b).set n b' = (l.set n b').set m b := by
  refine ext_get (by simp) fun i => ?_
  simp only [get_set]
  split_ifs with hn hm hm
  · exact absurd (hm.trans hn.symm) hne
  all_goals rfl

/-- Entries for different arguments can be written in any order. -/
theorem fill_perm {arity : Nat} {entries entries' : List (Nat × Bool)}
    (hn : (entries.map (·.1)).Nodup) (hp : entries.Perm entries') :
    fill arity entries = fill arity entries' := by
  refine hp.foldl_eq' (fun e he e' he' l => ?_) _
  by_cases heq : e = e'
  · rw [heq]
  · exact set_comm l (fun h => heq (List.inj_on_of_nodup_map hn he he' h)) _ _

end LookupTable

/-! ## The lookup table of an output -/

namespace TruthTable

variable {t : TruthTable} {output : Nat}

/-- What an output writes into its lookup table, row by row. -/
def entries (t : TruthTable) (output : Nat) : List (Nat × Bool) :=
  (t.column output).zipIdx.map fun (v, i) => (reverseDigits t.letters.length i, v == .known true)

theorem lookup?_eq_fill (h : output < t.sinks.length) (hr : t.rows ≠ []) :
    t.lookup? output = some (.fill t.letters.length (t.entries output)) := by
  have hcond : (decide (output < t.sinks.length) && !t.rows.isEmpty) = true := by simp [h, hr]
  rw [lookup?, if_pos hcond, LookupTable.fill, entries, List.foldl_map]

theorem lookup?_eq_none_iff (hr : t.rows ≠ []) :
    t.lookup? output = none ↔ t.sinks.length ≤ output := by
  constructor
  · intro h
    by_contra hlt
    rw [lookup?_eq_fill (Nat.not_le.mp hlt) hr] at h
    cases h
  · intro h
    rw [lookup?, if_neg (by simp [h])]

theorem length_entries (t : TruthTable) (output : Nat) :
    (t.entries output).length = t.rows.length := by
  simp [entries, column]

theorem getElem_entries {i : Nat} (h : i < (t.entries output).length) (hi : i < t.rows.length) :
    (t.entries output)[i] = (reverseDigits t.letters.length i,
      t.rows[i].outputs.getD output .unset == .known true) := by
  simp [entries, column]

theorem map_fst_entries (t : TruthTable) (output : Nat) :
    (t.entries output).map (·.1) =
      (List.range t.rows.length).map (reverseDigits t.letters.length) :=
  List.ext_getElem (by simp [length_entries]) fun i _ hi => by
    rw [List.length_map, List.length_range] at hi
    rw [List.getElem_map, getElem_entries _ hi, List.getElem_map, List.getElem_range]

end TruthTable

/-! ## The assignment of an argument -/

namespace Assignment

variable {s : Assignment} {letters : List Char} {m : Nat}

/-- The assignment gives every letter the digit of a number that has the rank of the letter; the
first letter takes the lowest digit. -/
def GivesDigits (s : Assignment) (letters : List Char) (m : Nat) : Prop :=
  ∀ j (h : j < letters.length), s.get? letters[j] = some (m.testBit j)

/-- Read from the first letter on, the bits are the digits of the reversed number. -/
theorem givesDigits_iff : s.GivesDigits letters m ↔ letters.map s.get? =
    (binaryDigits letters.length (reverseDigits letters.length m)).map some := by
  rw [binaryDigits_reverseDigits]
  constructor
  · intro h
    refine List.ext_getElem (by simp) fun j hj _ => ?_
    rw [List.getElem_map, List.getElem_map, getElem_reverse_binaryDigits, h]
  · intro h j hj
    have hbit := List.getElem_of_eq h (i := j) (by simpa using hj)
    rwa [List.getElem_map, List.getElem_map, getElem_reverse_binaryDigits] at hbit

theorem exists_givesDigits (hn : letters.Nodup) (hu : ∀ l ∈ letters, l.toUpper = l) (m : Nat) :
    ∃ s : Assignment, s.GivesDigits letters m :=
  ⟨ofDigits letters (reverseDigits letters.length m),
    givesDigits_iff.mpr (map_get?_ofDigits hn hu _)⟩

end Assignment

/-! ## The function of an output -/

namespace Circuit.CompleteTable

variable {c : Circuit} {t : TruthTable} {output : Nat}

theorem rows_ne_nil (ht : c.CompleteTable t) : t.rows ≠ [] := by
  intro h
  have hcount := ht.count
  rw [h] at hcount
  exact absurd hcount.symm (by simp)

/-- Every argument is written exactly once. -/
theorem perm_map_fst_entries (ht : c.CompleteTable t) (output : Nat) :
    ((t.entries output).map (·.1)).Perm (List.range (2 ^ t.letters.length)) := by
  rw [t.map_fst_entries, ht.count]
  exact perm_map_reverseDigits t.letters.length

theorem nodup_map_fst_entries (ht : c.CompleteTable t) (output : Nat) :
    ((t.entries output).map (·.1)).Nodup :=
  (ht.perm_map_fst_entries output).nodup_iff.mpr List.nodup_range

/-- A row is written at the argument whose digits are those of its rank in reverse. -/
theorem get_fill_entries (ht : c.CompleteTable t) (output : Nat) {i : Nat}
    (hi : i < t.rows.length) :
    (LookupTable.fill t.letters.length (t.entries output)).get
        (reverseDigits t.letters.length i) =
      (t.rows[i].outputs.getD output .unset == .known true) := by
  have hlen : i < (t.entries output).length := by rwa [TruthTable.length_entries]
  have hget := LookupTable.get_fill_of_mem t.letters.length (ht.nodup_map_fst_entries output)
    (List.getElem_mem hlen)
  rwa [TruthTable.getElem_entries hlen hi] at hget

/-- The lookup table has the bit that the output has where the letters have the digits of the
argument. -/
theorem get_fill_eq (ht : c.CompleteTable t) {m : Nat} (hm : m < 2 ^ t.letters.length)
    {s : Assignment} (hs : s.GivesDigits t.letters m) (h : output < t.sinks.length) :
    ∃ e, c.evaluate s = .ok e ∧
      (LookupTable.fill t.letters.length (t.entries output)).get m =
        (e.value t.sinks[output] == .known true) := by
  have hi : reverseDigits t.letters.length m < t.rows.length := by
    rw [ht.count]
    exact reverseDigits_lt _ _
  have hinputs := ht.inputs_getElem hi
  obtain ⟨e, he, houtputs⟩ := ht.outputs _ (List.getElem_mem hi) s
    (by rw [hinputs, Assignment.givesDigits_iff.mp hs])
  refine ⟨e, he, ?_⟩
  have hget := ht.get_fill_entries output hi
  rw [reverseDigits_reverseDigits hm, houtputs] at hget
  rw [hget]
  simp [h]

end Circuit.CompleteTable

end LogicCircuit
