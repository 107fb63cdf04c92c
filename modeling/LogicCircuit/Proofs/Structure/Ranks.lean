import LogicCircuit.Circuit.Consistency
import LogicCircuit.Proofs.Evaluation.Renaming

/-!
# Ranks and structure

Circuits of the same structure have the same kinds of gates, rank by rank, connected in the same
way. So giving every gate of the first one the identifier that has its rank in the second one turns
the gates of the first into those of the second: that is a renaming, and it is one to one.

Results:
* `sameRank_iff`: gates of the same rank are those that the renaming takes to each other.
* `translate_injective`: it gives different gates different names.
* `renames_of_sameStructure`: it turns the gates of one circuit into those of the other.
-/

namespace LogicCircuit.Circuit

variable {a b c : Circuit}

/-! ## Ranks -/

theorem WellFormed.rank?_eq_some (hc : c.WellFormed) {id : GateId} {i : Nat} :
    c.rank? id = some i ↔ c.ids[i]? = some id := by
  unfold rank?
  rw [List.findIdx?_eq_some_iff_getElem, List.getElem?_eq_some_iff]
  constructor
  · rintro ⟨hi, hid, -⟩
    exact ⟨hi, beq_iff_eq.mp hid⟩
  · rintro ⟨hi, rfl⟩
    refine ⟨hi, beq_self_eq_true _, fun j hj heq => ?_⟩
    have hlt := List.pairwise_iff_getElem.mp hc.ascending j i (hj.trans hi) hi hj
    exact hlt.ne (beq_iff_eq.mp heq)

theorem WellFormed.exists_rank (hc : c.WellFormed) {id : GateId} (h : id ∈ c.ids) :
    ∃ i, c.rank? id = some i := by
  obtain ⟨i, hi⟩ := List.mem_iff_getElem?.mp h
  exact ⟨i, hc.rank?_eq_some.mpr hi⟩

theorem WellFormed.mem_ids_of_rank (hc : c.WellFormed) {id : GateId} {i : Nat}
    (h : c.rank? id = some i) : id ∈ c.ids :=
  List.mem_of_getElem? (hc.rank?_eq_some.mp h)

/-- The gates have the same rank, each in its circuit. -/
def SameRank (a b : Circuit) (x y : GateId) : Prop :=
  ∃ i, a.rank? x = some i ∧ b.rank? y = some i

theorem SameRank.left_unique (ha : a.WellFormed) {x x' y : GateId} (h : a.SameRank b x y)
    (h' : a.SameRank b x' y) : x = x' := by
  obtain ⟨i, hx, hy⟩ := h
  obtain ⟨j, hx', hy'⟩ := h'
  obtain rfl : i = j := Option.some.inj (hy.symm.trans hy')
  exact Option.some.inj ((ha.rank?_eq_some.mp hx).symm.trans (ha.rank?_eq_some.mp hx'))

/-! ## The renaming -/

/-- The identifier that has the rank of a gate in another circuit. A number without a rank is taken
beyond all identifiers of that circuit. -/
def translate (a b : Circuit) (x : GateId) : GateId :=
  match a.rank? x with
  | some i => b.ids.getD i 0
  | none => b.nextId + x

section Translate

variable (ha : a.WellFormed) (hb : b.WellFormed) (hlength : a.ids.length = b.ids.length)
include ha hb hlength

theorem sameRank_translate {x : GateId} (hx : x ∈ a.ids) : a.SameRank b x (a.translate b x) := by
  obtain ⟨i, hi⟩ := ha.exists_rank hx
  obtain ⟨hlt, -⟩ := List.getElem?_eq_some_iff.mp (ha.rank?_eq_some.mp hi)
  have hget : b.ids[i]? = some (a.translate b x) := by
    unfold translate
    rw [hi, List.getElem?_eq_getElem (hlength ▸ hlt)]
    exact congrArg some (List.getD_eq_getElem _ _ (hlength ▸ hlt)).symm
  exact ⟨i, hi, hb.rank?_eq_some.mpr hget⟩

theorem sameRank_iff {x y : GateId} : a.SameRank b x y ↔ x ∈ a.ids ∧ y = a.translate b x := by
  constructor
  · rintro ⟨i, hx, hy⟩
    have hmem := ha.mem_ids_of_rank hx
    obtain ⟨j, hx', hy'⟩ := sameRank_translate ha hb hlength hmem
    obtain rfl : i = j := Option.some.inj (hx.symm.trans hx')
    exact ⟨hmem, Option.some.inj ((hb.rank?_eq_some.mp hy).symm.trans (hb.rank?_eq_some.mp hy'))⟩
  · rintro ⟨hx, rfl⟩
    exact sameRank_translate ha hb hlength hx

theorem translate_injective : Function.Injective (a.translate b) := by
  have hrank : ∀ {x}, x ∈ a.ids → a.SameRank b x (a.translate b x) :=
    fun hx => sameRank_translate ha hb hlength hx
  have hin : ∀ {x}, x ∈ a.ids → a.translate b x < b.nextId := by
    intro x hx
    obtain ⟨i, -, hi⟩ := hrank hx
    exact hb.lt_nextId (hb.mem_ids_of_rank hi)
  have hout : ∀ {x}, x ∉ a.ids → a.translate b x = b.nextId + x := by
    intro x hx
    have hnone : a.rank? x = none :=
      Option.eq_none_iff_forall_ne_some.mpr fun i hi => hx (ha.mem_ids_of_rank hi)
    rw [translate, hnone]
  intro x y h
  -- names of identifiers are below the next identifier, names of other numbers are not
  by_cases hx : x ∈ a.ids <;> by_cases hy : y ∈ a.ids
  · exact (hrank hx).left_unique ha (h ▸ hrank hy)
  · have hlt := hin hx
    rw [h, hout hy] at hlt
    exact absurd hlt (Nat.not_lt.mpr (Nat.le_add_right _ _))
  · have hlt := hin hy
    rw [← h, hout hx] at hlt
    exact absurd hlt (Nat.not_lt.mpr (Nat.le_add_right _ _))
  · rw [hout hx, hout hy] at h
    exact Nat.add_left_cancel h

theorem ids_eq_map_translate : b.ids = a.ids.map (a.translate b) := by
  refine List.ext_getElem? fun i => ?_
  rw [List.getElem?_map]
  cases hi : a.ids[i]? with
  | none =>
    rw [List.getElem?_eq_none_iff, hlength] at hi
    exact List.getElem?_eq_none_iff.mpr hi
  | some x =>
    obtain ⟨j, hx, hy⟩ := sameRank_translate ha hb hlength (List.mem_of_getElem? hi)
    obtain rfl : i = j := Option.some.inj ((ha.rank?_eq_some.mpr hi).symm.trans hx)
    exact hb.rank?_eq_some.mp hy

/-- Slots that hold gates of the same ranks are the same slots under the other names. -/
theorem slots_eq_map_translate {l l' : List (Option GateId)} (hl : ∀ d, some d ∈ l → d ∈ a.ids)
    (h : l.map (·.map a.rank?) = l'.map (·.map b.rank?)) : l' = l.map (·.map (a.translate b)) := by
  induction l generalizing l' with
  | nil => exact List.map_eq_nil_iff.mp h.symm
  | cons o l ih =>
    obtain ⟨o', rest, rfl, ho, hrest⟩ := List.map_eq_cons_iff.mp h.symm
    rw [List.map_cons, ih (fun d hd => hl d (List.mem_cons_of_mem o hd)) hrest.symm]
    refine congrArg (· :: _) ?_
    cases o with
    | none =>
      cases o' with
      | none => rfl
      | some d' => cases ho
    | some d =>
      cases o' with
      | none => cases ho
      | some d' =>
        obtain ⟨i, hi⟩ := ha.exists_rank (hl d List.mem_cons_self)
        have hrank : b.rank? d' = some i := (Option.some.inj ho).trans hi
        exact congrArg some ((sameRank_iff ha hb hlength).mp ⟨i, hi, hrank⟩).2

end Translate

/-! ## The same structure -/

theorem sameStructure_iff :
    a.sameStructure b = true ↔ a.wires.length = b.wires.length ∧ a.shape = b.shape := by
  rw [sameStructure, Bool.and_eq_true, beq_iff_eq, beq_iff_eq]

theorem length_ids_of_sameStructure (h : a.sameStructure b = true) :
    a.ids.length = b.ids.length := by
  have hshape := congrArg List.length (sameStructure_iff.mp h).2
  unfold shape at hshape
  rwa [List.length_map, List.length_map, ← List.length_map (f := Gate.id),
    ← List.length_map (f := Gate.id)] at hshape

/-- The gates of a circuit of the same structure are those of the first one under the names that
have their ranks. -/
theorem renames_of_sameStructure (ha : a.WellFormed) (hb : b.WellFormed)
    (h : a.sameStructure b = true) : Renames (a.translate b) a.gates b.gates := by
  have hlength := length_ids_of_sameStructure h
  have hids := ids_eq_map_translate ha hb hlength
  have hshape := (sameStructure_iff.mp h).2
  unfold ids at hids hlength
  unfold shape at hshape
  rw [List.length_map, List.length_map] at hlength
  refine List.forall₂_iff_get.mpr ⟨hlength, fun i hi hi' => ?_⟩
  have hid := List.getElem_of_eq hids (by rwa [List.length_map])
  have hgate := List.getElem_of_eq hshape (by rwa [List.length_map])
  simp only [List.getElem_map] at hid hgate
  have hmem : a.gates[i] ∈ a.gates := List.getElem_mem hi
  have hslots := slots_eq_map_translate ha hb (length_ids_of_sameStructure h)
    (fun d hd => ha.input_mem hmem (List.mem_filterMap.mpr ⟨some d, hd, rfl⟩))
    (congrArg (·.2) hgate)
  exact Prod.ext hid (Prod.ext (congrArg (·.1) hgate).symm hslots)

end LogicCircuit.Circuit
