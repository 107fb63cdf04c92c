import Mathlib

/-!
# Association lists

What is looked up in a list of entries is the first one of a key.

Results:
* `lookup_cons_eq_ite`, `lookup_filter_ne`: looking up behind an entry, and without a key.
* `lookup_map_pair`, `lookup_map_injective`: looking up a value that is a function of the key, and
  under other keys.
* `mem_iff_lookup`: as long as no key is repeated, every entry is looked up.
-/

namespace LogicCircuit

variable {α β γ : Type} [DecidableEq α] [DecidableEq γ]

theorem lookup_cons_eq_ite (e : α × β) (rest : List (α × β)) (k : α) :
    (e :: rest).lookup k = if k = e.1 then some e.2 else rest.lookup k := by
  rw [List.lookup_cons]
  by_cases h : k = e.1
  · rw [if_pos h, beq_iff_eq.mpr h]
  · rw [if_neg h, beq_eq_false_iff_ne.mpr h]

theorem lookup_filter_ne (key k : α) (entries : List (α × β)) :
    (entries.filter (·.1 ≠ key)).lookup k = if k = key then none else entries.lookup k := by
  induction entries with
  | nil => rw [List.filter_nil, List.lookup_nil, ite_self]
  | cons e rest ih =>
    by_cases he : e.1 = key
    · rw [List.filter_cons_of_neg (by simp [he]), ih, lookup_cons_eq_ite, he]
      split_ifs <;> rfl
    · rw [List.filter_cons_of_pos (by simp [he]), lookup_cons_eq_ite, lookup_cons_eq_ite, ih]
      by_cases h : k = e.1
      · rw [if_pos h, if_pos h, if_neg (h ▸ he)]
      · rw [if_neg h, if_neg h]

theorem lookup_map_pair {keys : List α} (f : α → β) (k : α) :
    (keys.map fun key => (key, f key)).lookup k = if k ∈ keys then some (f k) else none := by
  induction keys with
  | nil => rfl
  | cons key keys ih =>
    rw [List.map_cons, lookup_cons_eq_ite, ih]
    by_cases h : k = key
    · simp [h]
    · simp [h]

theorem lookup_map_injective {r : α → γ} (hr : Function.Injective r) (entries : List (α × β))
    (k : α) : (entries.map fun e => (r e.1, e.2)).lookup (r k) = entries.lookup k := by
  induction entries with
  | nil => rfl
  | cons e rest ih =>
    rw [List.map_cons, lookup_cons_eq_ite, lookup_cons_eq_ite, ih]
    exact if_congr hr.eq_iff rfl rfl

theorem mem_iff_lookup {entries : List (α × β)} (h : (entries.map (·.1)).Nodup) {k : α} {b : β} :
    (k, b) ∈ entries ↔ entries.lookup k = some b := by
  induction entries with
  | nil => simp
  | cons e rest ih =>
    rw [List.map_cons, List.nodup_cons] at h
    rw [List.mem_cons, lookup_cons_eq_ite, ih h.2]
    by_cases hk : k = e.1
    · subst hk
      have hrest : rest.lookup e.1 ≠ some b := fun hb =>
        h.1 (List.mem_map.mpr ⟨_, (ih h.2).mpr hb, rfl⟩)
      simp [Prod.ext_iff, hrest, eq_comm]
    · simp [Prod.ext_iff, hk]

end LogicCircuit
