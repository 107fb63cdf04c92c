import LogicCircuit.Proofs.Text.Lines
import LogicCircuit.Proofs.TruthTable.Lookup
import LogicCircuit.TruthTable.Csv

/-!
# Two encodings of a function

A truth table is written out as one lookup table for each output, and as comma-separated values for
the first output. Both are encodings of what the circuit computes: the lookup table takes the first
letter as the lowest digit of an argument, the lines of the values take it as the highest digit of
their rank, so line `i` ends with the bit that the lookup table has at the reversal of `i`.

Results:
* `cells_csv`: the cells of a complete table.
* `encodings_exact`: what both encodings say about the circuit.
-/

namespace LogicCircuit

namespace TruthTable

theorem isCell_letter {l : Char} (h : l.isAlpha = true) : Text.IsCell l.toString := by
  have hne : ∀ c : Char, c.isAlpha = false → c ∉ l.toString.toList := by
    intro c hc hmem
    rw [Char.toString_eq_singleton, String.toList_singleton, List.mem_singleton] at hmem
    rw [hmem, h] at hc
    cases hc
  exact ⟨hne '\n' (by decide), hne ',' (by decide)⟩

theorem isCell_digit (b : Bool) : Text.IsCell (Value.digit b).toString := by
  cases b <;> decide

theorem isCell_csvHead {t : TruthTable} (ha : ∀ l ∈ t.letters, l.isAlpha = true) :
    ∀ cell ∈ t.csvHead, Text.IsCell cell := by
  intro cell h
  rcases List.mem_append.mp h with h | h
  · obtain ⟨l, hl, rfl⟩ := List.mem_map.mp h
    exact isCell_letter (ha l hl)
  · rw [List.mem_singleton.mp h]
    decide

theorem csvRow_eq (r : Row) :
    csvRow r = (r.inputs ++ [r.outputs.headD .unset == .known true]).map fun b =>
      (Value.digit b).toString := by
  rw [csvRow, csvOutput, List.map_append, List.map_singleton]

theorem isCell_csvRow (r : Row) : ∀ cell ∈ csvRow r, Text.IsCell cell := by
  intro cell h
  rw [csvRow_eq] at h
  obtain ⟨b, -, rfl⟩ := List.mem_map.mp h
  exact isCell_digit b

/-- The cells of the comma-separated values are the letters and the title of the output, then the
digits of each row and of its first output. -/
theorem cells_csv {t : TruthTable} (ha : ∀ l ∈ t.letters, l.isAlpha = true) :
    Text.cells t.csv = (t.letters.map ([·]) ++ ["Output".toList]) ::
      t.rows.map (fun r => (r.inputs ++ [r.outputs.headD .unset == .known true]).map
        ([Value.digit ·])) ++ [[[]]] := by
  have hne : ∀ row ∈ t.csvHead :: t.rows.map csvRow, row ≠ [] := by
    intro row h
    rcases List.mem_cons.mp h with rfl | h
    · exact List.append_ne_nil_of_right_ne_nil _ (List.cons_ne_nil _ _)
    · obtain ⟨r, -, rfl⟩ := List.mem_map.mp h
      exact List.append_ne_nil_of_right_ne_nil _ (List.cons_ne_nil _ _)
  have hcell : ∀ row ∈ t.csvHead :: t.rows.map csvRow, ∀ cell ∈ row, Text.IsCell cell := by
    intro row h
    rcases List.mem_cons.mp h with rfl | h
    · exact isCell_csvHead ha
    · obtain ⟨r, -, rfl⟩ := List.mem_map.mp h
      exact isCell_csvRow r
  have hhead : t.csvHead.map String.toList = t.letters.map ([·]) ++ ["Output".toList] := by
    simp [csvHead, Char.toString_eq_singleton]
  have hrow : ∀ r : Row, (csvRow r).map String.toList =
      (r.inputs ++ [r.outputs.headD .unset == .known true]).map ([Value.digit ·]) := by
    intro r
    rw [csvRow_eq, List.map_map]
    exact List.map_congr_left fun b _ => by simp [Char.toString_eq_singleton]
  rw [csv, Text.cells_unlines hne hcell, List.map_cons, hhead, List.map_map]
  congr 2
  exact List.map_congr_left fun r _ => hrow r

end TruthTable

namespace Circuit

variable {c : Circuit} {t : TruthTable}

/-- The lookup tables and the comma-separated values of a table are encodings of the function that
a circuit computes. -/
structure EncodedBy (c : Circuit) (t : TruthTable) : Prop where
  /-- Every number stands for an assignment of the letters. -/
  assignment : ∀ m, ∃ s : Assignment, s.GivesDigits t.letters m
  /-- Digit `m` of the lookup table of an output is one exactly if the output is one under the
  assignment that `m` stands for. There are no other digits. -/
  lookup : ∀ output (h : output < t.sinks.length), ∃ l, t.lookup? output = some l ∧
    l.arity = t.letters.length ∧ l.digits < 2 ^ 2 ^ l.arity ∧
    ∀ m < 2 ^ l.arity, ∀ s : Assignment, s.GivesDigits t.letters m →
      ∃ e, c.evaluate s = .ok e ∧ (l.get m = true ↔ e.value t.sinks[output] = .known true)
  /-- Every digit is written exactly once. -/
  once : ∀ output, ((t.entries output).map (·.1)).Perm (List.range (2 ^ t.letters.length))
  /-- The order in which the rows are written makes no difference. -/
  anyOrder : ∀ output < t.sinks.length, ∀ entries, (t.entries output).Perm entries →
    t.lookup? output = some (.fill t.letters.length entries)
  absent : ∀ output, t.lookup? output = none ↔ t.sinks.length ≤ output
  /-- Each line of the comma-separated values has the digits of its rank, the highest one first,
  and then the digit of the first lookup table at the reversal of the rank. -/
  csv : ∃ l, t.lookup? 0 = some l ∧ Text.cells t.csv =
    (t.letters.map ([·]) ++ ["Output".toList]) ::
      (List.range (2 ^ t.letters.length)).map (fun i => (binaryDigits t.letters.length i ++
        [l.get (binary (binaryDigits t.letters.length i).reverse)]).map ([Value.digit ·])) ++ [[[]]]

theorem CompleteTable.encodedBy (hc : c.WellFormed) (ht : c.CompleteTable t)
    (ha : ∀ l ∈ t.letters, l.isAlpha = true) : c.EncodedBy t where
  assignment := by
    rw [ht.letters, letters_registry]
    exact Assignment.exists_givesDigits c.nodup_letters hc.toUpper_letters
  lookup := by
    intro output h
    refine ⟨_, TruthTable.lookup?_eq_fill h ht.rows_ne_nil, LookupTable.arity_fill _ _, ?_, ?_⟩
    · refine LookupTable.digits_fill_lt fun m hm => ?_
      rw [LookupTable.arity_fill]
      exact List.mem_range.mp ((ht.perm_map_fst_entries output).mem_iff.mp hm)
    · intro m hm s hs
      rw [LookupTable.arity_fill] at hm
      obtain ⟨e, he, hget⟩ := ht.get_fill_eq hm hs h
      exact ⟨e, he, by rw [hget, beq_iff_eq]⟩
  once := ht.perm_map_fst_entries
  anyOrder := by
    intro output h entries hperm
    rw [TruthTable.lookup?_eq_fill h ht.rows_ne_nil,
      LookupTable.fill_perm (ht.nodup_map_fst_entries output) hperm]
  absent := fun output => TruthTable.lookup?_eq_none_iff ht.rows_ne_nil
  csv := by
    have hpos : 0 < t.sinks.length := List.length_pos_of_ne_nil ht.sinks_ne_nil
    refine ⟨_, TruthTable.lookup?_eq_fill hpos ht.rows_ne_nil, ?_⟩
    rw [TruthTable.cells_csv ha]
    congr 2
    refine List.ext_getElem (by simp [ht.count]) fun i hi _ => ?_
    rw [List.length_map] at hi
    rw [List.getElem_map, List.getElem_map, List.getElem_range, ht.inputs_getElem hi,
      ← reverseDigits_eq, ht.get_fill_entries 0 hi, List.headD_eq_getD]

/-- The table of an acyclic circuit, and what its encodings say. -/
theorem encodings_exact (hc : c.WellFormed) (ha : ∀ l ∈ c.registry.letters, l.isAlpha = true)
    (hacyclic : c.Acyclic) (hl : c.registry.letters ≠ []) {limits : Limits}
    (hk : c.registry.letters.length ≤ limits.tableLetters) :
    ∃ t, (c.tabulate limits).table = .ok t ∧ t.letters = c.registry.letters ∧
      t.sinks = c.sinks ∧ c.EncodedBy t := by
  rw [letters_registry] at hl hk
  obtain ⟨t, ht, htable⟩ := exists_completeTable hc hacyclic hk hl
  refine ⟨t, by rw [htable], ht.letters, ht.sinks, ht.encodedBy hc ?_⟩
  rwa [ht.letters]

theorem encodings_exact_lettersTwice :
    lettersTwice.WellFormed ∧ (∀ l ∈ lettersTwice.registry.letters, l.isAlpha = true) ∧
      lettersTwice.Acyclic ∧ lettersTwice.registry.letters = ['B', 'A'] ∧
      ∃ t, (lettersTwice.tabulate {}).table = .ok t ∧ t.letters = lettersTwice.registry.letters ∧
        t.sinks = lettersTwice.sinks ∧ lettersTwice.EncodedBy t :=
  ⟨lettersTwice_wellFormed, lettersTwice_isAlpha, lettersTwice_acyclic, by decide,
    encodings_exact lettersTwice_wellFormed lettersTwice_isAlpha lettersTwice_acyclic (by decide)
      (by decide)⟩

/-- The output of `lettersTwice` that is not open is its first letter. -/
example : ((lettersTwice.tabulate {}).table.toOption.map fun t =>
    (t.lookup? 0, t.lookup? 1, t.lookup? 2)) = some (some ⟨2, 0b1010⟩, some ⟨2, 0⟩, none) := by
  decide

example : ((lettersTwice.tabulate {}).table.toOption.map (·.csv)) =
    some "B,A,Output\n0,0,0\n0,1,0\n1,0,1\n1,1,1\n" := by decide

end Circuit

end LogicCircuit
