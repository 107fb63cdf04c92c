import Mathlib.Data.List.Basic
import LogicCircuit.Text.Lines

/-!
# Taking written texts apart

What is written line by line, or with separators between its parts, can be taken apart again as
long as the parts contain no separator.

Results:
* `splitOn_unlines`: a text is taken apart into the lines it was put together from.
* `cells_unlines`: the same for lines and the cells between their commas.
-/

namespace LogicCircuit.Text

theorem toList_unlines (lines : List String) :
    (unlines lines).toList = lines.flatMap (·.toList ++ ['\n']) := by
  simp [unlines, String.toList_join, List.flatMap_map]

/-- A text is taken apart into the lines it was put together from. -/
theorem splitOn_unlines {lines : List String} (h : ∀ l ∈ lines, '\n' ∉ l.toList) :
    (unlines lines).toList.splitOn '\n' = lines.map String.toList ++ [[]] := by
  rw [toList_unlines]
  induction lines with
  | nil => rfl
  | cons l lines ih =>
    rw [List.flatMap_cons, List.append_assoc, List.singleton_append,
      List.splitOn_append_cons_self_of_not_mem (h l List.mem_cons_self),
      ih fun l hl => h l (List.mem_cons_of_mem _ hl)]
    rfl

theorem mem_intercalate {separator : List Char} {args : List (List Char)} {c : Char}
    (h : c ∈ separator.intercalate args) : c ∈ separator ∨ ∃ a ∈ args, c ∈ a := by
  induction args with
  | nil => simp at h
  | cons a args ih =>
    cases args with
    | nil => exact .inr ⟨a, List.mem_cons_self, by simpa using h⟩
    | cons b args =>
      rw [List.intercalate_cons_cons, List.mem_append, List.mem_append] at h
      rcases h with (h | h) | h
      · exact .inr ⟨a, List.mem_cons_self, h⟩
      · exact .inl h
      · exact (ih h).imp_right fun ⟨a, ha, hc⟩ => ⟨a, List.mem_cons_of_mem _ ha, hc⟩

/-! ## Cells -/

/-- What stands between the commas of a text, line by line. -/
def cells (text : String) : List (List (List Char)) :=
  (text.toList.splitOn '\n').map (·.splitOn ',')

/-- A text that separates neither lines nor cells. -/
def IsCell (cell : String) : Prop := '\n' ∉ cell.toList ∧ ',' ∉ cell.toList

instance (cell : String) : Decidable (IsCell cell) := inferInstanceAs (Decidable (_ ∧ _))

theorem newline_notMem_intercalate {row : List String} (h : ∀ cell ∈ row, IsCell cell) :
    '\n' ∉ (",".intercalate row).toList := by
  rw [String.toList_intercalate]
  intro hmem
  rcases mem_intercalate hmem with hc | ⟨a, ha, hc⟩
  · exact absurd hc (by decide)
  · obtain ⟨cell, hcell, rfl⟩ := List.mem_map.mp ha
    exact (h cell hcell).1 hc

theorem splitOn_intercalate {row : List String} (hne : row ≠ []) (h : ∀ cell ∈ row, IsCell cell) :
    (",".intercalate row).toList.splitOn ',' = row.map String.toList := by
  have hcomma : ∀ l ∈ row.map String.toList, ',' ∉ l := by
    intro l hl
    obtain ⟨cell, hcell, rfl⟩ := List.mem_map.mp hl
    exact (h cell hcell).2
  rw [String.toList_intercalate]
  exact List.splitOn_intercalate ',' hcomma (by simpa using hne)

/-- A text is taken apart into the cells it was put together from; nothing stands behind its last
line end. -/
theorem cells_unlines {rows : List (List String)} (hne : ∀ row ∈ rows, row ≠ [])
    (h : ∀ row ∈ rows, ∀ cell ∈ row, IsCell cell) :
    cells (unlines (rows.map ",".intercalate)) = rows.map (·.map String.toList) ++ [[[]]] := by
  have hlines : ∀ l ∈ rows.map ",".intercalate, '\n' ∉ l.toList := by
    intro l hl
    obtain ⟨row, hrow, rfl⟩ := List.mem_map.mp hl
    exact newline_notMem_intercalate (h row hrow)
  rw [cells, splitOn_unlines hlines, List.map_append, List.map_map, List.map_map]
  congr 1
  exact List.map_congr_left fun row hrow => splitOn_intercalate (hne row hrow) (h row hrow)

end LogicCircuit.Text
