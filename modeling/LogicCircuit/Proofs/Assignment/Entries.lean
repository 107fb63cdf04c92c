import LogicCircuit.Assignment
import LogicCircuit.Proofs.Association

/-!
# The entries of an assignment

An assignment is a list of entries, of which the first one of a letter counts. As long as no letter
has two of them, the entries and what is looked up tell the same. Assigning a letter replaces its
entry or adds one at the end, and so keeps it that way.

Results:
* `get?_set`, `get?_unset`: what is looked up after a change.
* `letters_set`, `letters_unset`: which letters are assigned after a change.
* `Unrepeated.mem_toList`, `Unrepeated.ofList_toList`: the entries give the assignment back.
-/

namespace LogicCircuit.Assignment

variable {s : Assignment}

/-! ## Looking up -/

theorem lookup_setEntry (letter l : Char) (bit : Bool) (entries : List (Char × Bool)) :
    (setEntry letter bit entries).lookup l = if l = letter then some bit else entries.lookup l := by
  induction entries with
  | nil => exact lookup_cons_eq_ite (letter, bit) [] l
  | cons e rest ih =>
    rw [setEntry]
    by_cases he : e.1 = letter
    · rw [if_pos he, lookup_cons_eq_ite, lookup_cons_eq_ite, he]
      split_ifs <;> rfl
    · rw [if_neg he, lookup_cons_eq_ite, lookup_cons_eq_ite, ih]
      by_cases h : l = e.1
      · rw [if_pos h, if_pos h, if_neg (h ▸ he)]
      · rw [if_neg h, if_neg h]

theorem get?_set (s : Assignment) (letter l : Char) (bit : Bool) :
    (s.set letter bit).get? l = if l.toUpper = letter.toUpper then some bit else s.get? l :=
  lookup_setEntry letter.toUpper l.toUpper bit s.entries

theorem get?_unset (s : Assignment) (letter l : Char) :
    (s.unset letter).get? l = if l.toUpper = letter.toUpper then none else s.get? l :=
  lookup_filter_ne letter.toUpper l.toUpper s.entries

/-! ## The assigned letters -/

/-- The assigned letters. -/
def letters (s : Assignment) : List Char := s.toList.map (·.1)

theorem get?_eq_none_iff {l : Char} : s.get? l = none ↔ l.toUpper ∉ s.letters := by
  rw [get?, List.lookup_eq_none_iff, letters, toList, List.mem_map, not_exists]
  refine forall_congr' fun e => ?_
  rw [bne_iff_ne, not_and, ne_comm]

theorem setEntry_of_notMem {letter : Char} {bit : Bool} {entries : List (Char × Bool)}
    (h : ∀ e ∈ entries, e.1 ≠ letter) :
    setEntry letter bit entries = entries ++ [(letter, bit)] := by
  induction entries with
  | nil => rfl
  | cons e rest ih =>
    obtain ⟨he, hrest⟩ := List.forall_mem_cons.mp h
    rw [setEntry, if_neg he, ih hrest, List.cons_append]

theorem map_fst_setEntry_of_mem {letter : Char} {bit : Bool} {entries : List (Char × Bool)}
    (h : letter ∈ entries.map (·.1)) :
    (setEntry letter bit entries).map (·.1) = entries.map (·.1) := by
  induction entries with
  | nil => cases h
  | cons e rest ih =>
    rw [setEntry]
    by_cases he : e.1 = letter
    · rw [if_pos he, List.map_cons, List.map_cons, he]
    · rw [if_neg he, List.map_cons, List.map_cons, ih]
      exact (List.mem_cons.mp h).resolve_left (Ne.symm he)

/-- A letter that is assigned already keeps its place, and another one is added at the end. -/
theorem letters_set (s : Assignment) (letter : Char) (bit : Bool) :
    (s.set letter bit).letters =
      if letter.toUpper ∈ s.letters then s.letters else s.letters ++ [letter.toUpper] := by
  by_cases h : letter.toUpper ∈ s.letters
  · rw [if_pos h]
    exact map_fst_setEntry_of_mem h
  · rw [if_neg h, letters, toList, set, setEntry_of_notMem, List.map_append]
    · rfl
    · exact fun e he heq => h (heq ▸ List.mem_map_of_mem he)

theorem letters_unset (s : Assignment) (letter : Char) :
    (s.unset letter).letters = s.letters.filter (· ≠ letter.toUpper) := by
  rw [letters, letters, List.filter_map]
  rfl

/-! ## Entries without repetition -/

/-- Every letter has one entry at most, whose letter is a capital. -/
structure Unrepeated (s : Assignment) : Prop where
  upper : ∀ l ∈ s.letters, l.toUpper = l
  nodup : s.letters.Nodup

/-- Assigning letters that are not assigned yet, one after the other, lists them behind the
others. -/
theorem foldl_set {front back : List (Char × Bool)} (h : Unrepeated ⟨front ++ back⟩) :
    back.foldl (fun s e => s.set e.1 e.2) (⟨front⟩ : Assignment) = ⟨front ++ back⟩ := by
  induction back generalizing front with
  | nil => rw [List.foldl_nil, List.append_nil]
  | cons e back ih =>
    have hsplit : front ++ e :: back = front ++ [e] ++ back := by
      rw [List.append_assoc, List.singleton_append]
    have hupper : e.1.toUpper = e.1 :=
      h.upper _ (List.mem_map_of_mem (List.mem_append_right _ List.mem_cons_self))
    have hnew : ∀ d ∈ front, d.1 ≠ e.1 := by
      have hnodup : (front.map (·.1) ++ e.1 :: back.map (·.1)).Nodup := by
        simpa [letters, toList] using h.nodup
      intro d hd he
      exact (List.nodup_append.mp hnodup).2.2 _ (List.mem_map_of_mem hd) _ List.mem_cons_self he
    rw [List.foldl_cons, set, hupper, setEntry_of_notMem hnew]
    rw [hsplit] at h ⊢
    exact ih h

namespace Unrepeated

theorem set (h : s.Unrepeated) (letter : Char) (bit : Bool) : (s.set letter bit).Unrepeated := by
  constructor
  all_goals rw [letters_set]; split_ifs with hmem
  · exact h.upper
  · refine List.forall_mem_append.mpr ⟨h.upper, ?_⟩
    simp [Char.toUpper_toUpper_eq_toUpper]
  · exact h.nodup
  · exact List.nodup_append.mpr ⟨h.nodup, List.nodup_singleton _, by
      rintro l hl _ hmem' rfl
      exact hmem (List.mem_singleton.mp hmem' ▸ hl)⟩

theorem unset (h : s.Unrepeated) (letter : Char) : (s.unset letter).Unrepeated := by
  constructor
  all_goals rw [letters_unset]
  · exact fun l hl => h.upper l (List.mem_filter.mp hl).1
  · exact h.nodup.filter _

theorem mem_toList (h : s.Unrepeated) {l : Char} {b : Bool} :
    (l, b) ∈ s.toList ↔ l.toUpper = l ∧ s.get? l = some b := by
  constructor
  · intro hmem
    have hupper := h.upper l (List.mem_map_of_mem hmem)
    refine ⟨hupper, ?_⟩
    rw [get?, hupper]
    exact (mem_iff_lookup h.nodup).mp hmem
  · rintro ⟨hupper, hget⟩
    rw [get?, hupper] at hget
    exact (mem_iff_lookup h.nodup).mpr hget

theorem ofList_toList (h : s.Unrepeated) : ofList s.toList = s := foldl_set h

end Unrepeated

end LogicCircuit.Assignment
