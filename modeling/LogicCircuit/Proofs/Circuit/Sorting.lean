import LogicCircuit.Circuit.Order
import LogicCircuit.Proofs.Circuit.Letters
import LogicCircuit.Proofs.Evaluation.Traversal

/-!
# Sorting by dependency

`Circuit.order` takes ready gates from a stack and puts those that thereby become ready on it. At
any time the gates on the stack are the ready ones that have not been taken, each once. As every
gate is taken at most once, the fuel lasts until the stack is empty, and then no ready gate is
left.

Results:
* `Sorting.take`, `Sorting.takeReady`: what taking one gate keeps, and what the end of it comes to.
* `order_eq_ok`, `exists_order`: the gates can be sorted exactly if the circuit is acyclic.
-/

namespace LogicCircuit.Circuit

variable {c : Circuit}

/-! ## Ready gates -/

theorem isReady_iff (hc : c.WellFormed) {sorted : List GateId} {id : GateId} :
    c.isReady sorted id = true ↔ ∃ g ∈ c.gates, g.id = id ∧ ∀ d ∈ g.inputs, d ∈ sorted := by
  unfold isReady
  cases hg : c.gate? id with
  | none =>
    simp only [Bool.false_eq_true, false_iff]
    rintro ⟨g, hmem, rfl, -⟩
    exact gate?_eq_none.mp hg (mem_ids_of_mem hmem)
  | some g =>
    obtain ⟨hmem, rfl⟩ := hc.gate?_eq_some.mp hg
    simp only [List.all_eq_true, List.contains_iff_mem]
    constructor
    · exact fun h => ⟨g, hmem, rfl, h⟩
    · rintro ⟨g', hmem', hid, h⟩
      exact hc.eq_of_id_eq hmem' hmem hid ▸ h

theorem mem_targets (hc : c.WellFormed) {a b : GateId} :
    b ∈ c.targets a ↔ ∃ g ∈ c.gates, g.id = b ∧ a ∈ g.inputs := by
  refine Iff.trans ?_ hc.dependsOn_iff_wire.symm
  simp only [targets, List.mem_eraseDups, List.mem_reverse, List.mem_map, fanout, List.mem_filter,
    beq_iff_eq]
  constructor
  · rintro ⟨w, ⟨hw, hs⟩, ht⟩
    exact ⟨w, hw, ht, hs⟩
  · rintro ⟨w, hw, ht, hs⟩
    exact ⟨w, ⟨hw, hs⟩, ht⟩

/-! ## Taking gates from the stack -/

/-- The gates taken so far are in an order of dependency, and those on the stack are the ready
gates that have not been taken, each once. -/
structure Sorting (c : Circuit) (stack sorted : List GateId) : Prop where
  scheduled : ∃ done, c.Scheduled done ∧ done.map (·.id) = sorted
  nodup : stack.Nodup
  fresh : ∀ id ∈ stack, id ∉ sorted
  ready : ∀ id ∈ stack, c.isReady sorted id = true
  complete : ∀ id, c.isReady sorted id = true → id ∈ sorted ∨ id ∈ stack

theorem Scheduled.nodup_ids {done : List Gate} (h : c.Scheduled done) :
    (done.map (·.id)).Nodup := by
  induction h with
  | nil => exact List.nodup_nil
  | snoc _ _ hid _ ih =>
    rw [List.map_append, List.nodup_append]
    refine ⟨ih, List.nodup_singleton _, ?_⟩
    rintro a ha b hb rfl
    obtain rfl := List.mem_singleton.mp hb
    exact hid ha

namespace Sorting

variable {stack sorted : List GateId} {id : GateId}

theorem length_le (h : c.Sorting stack sorted) : sorted.length ≤ c.gates.length := by
  obtain ⟨done, hd, rfl⟩ := h.scheduled
  refine path_length_le hd.nodup_ids fun p hp => ?_
  obtain ⟨g, hg, rfl⟩ := List.mem_map.mp hp
  exact mem_ids_of_mem (hd.mem_gates g hg)

/-- A gate that depends on one that has not been taken has neither been taken nor become ready. -/
theorem not_ready_of_input (h : c.Sorting stack sorted) (hc : c.WellFormed) {g : Gate}
    (hg : g ∈ c.gates) (hin : id ∈ g.inputs) (hid : id ∉ sorted) :
    g.id ∉ sorted ∧ c.isReady sorted g.id = false := by
  obtain ⟨done, hd, rfl⟩ := h.scheduled
  constructor
  · intro hmem
    obtain ⟨g', hg', he⟩ := List.mem_map.mp hmem
    obtain rfl := hc.eq_of_id_eq (hd.mem_gates g' hg') hg he
    exact hid (hd.input_mem g' hg' id hin)
  · rw [Bool.eq_false_iff]
    intro hr
    obtain ⟨g', hg', he, hall⟩ := (isReady_iff hc).mp hr
    obtain rfl := hc.eq_of_id_eq hg' hg he
    exact hid (hall id hin)

/-- Taking the gate on top keeps the order. -/
theorem take (h : c.Sorting (id :: stack) sorted) (hc : c.WellFormed) :
    c.Sorting ((c.targets id).filter (c.isReady (sorted ++ [id])) ++ stack) (sorted ++ [id]) := by
  have hid : id ∉ sorted := h.fresh id List.mem_cons_self
  obtain ⟨hnot, hnodup⟩ := List.nodup_cons.mp h.nodup
  obtain ⟨g, hg, rfl, hin⟩ := (isReady_iff hc).mp (h.ready _ List.mem_cons_self)
  have hnew : ∀ t ∈ (c.targets g.id).filter (c.isReady (sorted ++ [g.id])),
      t ∉ sorted ∧ c.isReady sorted t = false ∧ c.isReady (sorted ++ [g.id]) t = true := by
    intro t ht
    obtain ⟨htarget, hready⟩ := List.mem_filter.mp ht
    obtain ⟨g', hg', rfl, hinput⟩ := (mem_targets hc).mp htarget
    obtain ⟨h1, h2⟩ := h.not_ready_of_input hc hg' hinput hid
    exact ⟨h1, h2, hready⟩
  have hmono : ∀ t, c.isReady sorted t = true → c.isReady (sorted ++ [g.id]) t = true := by
    intro t ht
    obtain ⟨g', hg', he, hall⟩ := (isReady_iff hc).mp ht
    exact (isReady_iff hc).mpr ⟨g', hg', he, fun d hd => List.mem_append_left _ (hall d hd)⟩
  refine ⟨?_, ?_, ?_, ?_, ?_⟩
  · obtain ⟨done, hd, rfl⟩ := h.scheduled
    exact ⟨done ++ [g], hd.snoc hg hid hin, by simp⟩
  · rw [List.nodup_append]
    refine ⟨List.Nodup.filter _ (nodup_eraseDups _), hnodup, ?_⟩
    rintro t ht t' ht' rfl
    have hready := h.ready t (List.mem_cons_of_mem _ ht')
    rw [(hnew t ht).2.1] at hready
    cases hready
  · intro t ht hmem
    rcases List.mem_append.mp hmem with hmem | hmem
    · rcases List.mem_append.mp ht with ht | ht
      · exact (hnew t ht).1 hmem
      · exact h.fresh t (List.mem_cons_of_mem _ ht) hmem
    · obtain rfl := List.mem_singleton.mp hmem
      rcases List.mem_append.mp ht with ht | ht
      · have hready := h.ready g.id List.mem_cons_self
        rw [(hnew _ ht).2.1] at hready
        cases hready
      · exact hnot ht
  · intro t ht
    rcases List.mem_append.mp ht with ht | ht
    · exact (hnew t ht).2.2
    · exact hmono t (h.ready t (List.mem_cons_of_mem _ ht))
  · intro t ht
    rw [List.mem_append, List.mem_append, List.mem_singleton, List.mem_filter]
    by_cases hold : c.isReady sorted t = true
    · rcases h.complete t hold with hmem | hmem
      · exact Or.inl (Or.inl hmem)
      · rcases List.mem_cons.mp hmem with rfl | hmem
        · exact Or.inl (Or.inr rfl)
        · exact Or.inr (Or.inr hmem)
    · -- the gate has become ready, so the one that was taken is among its inputs
      obtain ⟨g', hg', rfl, hall⟩ := (isReady_iff hc).mp ht
      have hinput : g.id ∈ g'.inputs := by
        by_contra hno
        refine hold ((isReady_iff hc).mpr ⟨g', hg', rfl, fun d hd => ?_⟩)
        rcases List.mem_append.mp (hall d hd) with hmem | hmem
        · exact hmem
        · exact absurd (List.mem_singleton.mp hmem ▸ hd) hno
      exact Or.inr (Or.inl ⟨(mem_targets hc).mpr ⟨g', hg', rfl, hinput⟩, ht⟩)

/-- In the end the gates that were taken are all that can ever be ready. -/
theorem takeReady {fuel : Nat} (h : c.Sorting stack sorted) (hc : c.WellFormed)
    (hf : c.gates.length ≤ sorted.length + fuel) :
    c.Sorting [] (c.takeReady fuel stack sorted) := by
  induction fuel generalizing stack sorted with
  | zero =>
    -- every gate has been taken, so none is on the stack
    cases stack with
    | nil => exact h
    | cons id stack =>
      have hle := (h.take hc).length_le
      rw [List.length_append, List.length_singleton] at hle
      omega
  | succ fuel ih =>
    cases stack with
    | nil => exact h
    | cons id stack =>
      refine ih (h.take hc) ?_
      rw [List.length_append, List.length_singleton]
      omega

end Sorting

/-! ## All gates -/

theorem sorting_sources (hc : c.WellFormed) :
    c.Sorting ((c.gates.filter (·.inputs.isEmpty)).map (·.id)) [] := by
  have hready : ∀ id, c.isReady [] id = true ↔
      id ∈ (c.gates.filter (·.inputs.isEmpty)).map (·.id) := by
    intro id
    rw [isReady_iff hc]
    simp only [List.not_mem_nil, List.mem_map, List.mem_filter, List.isEmpty_iff,
      List.eq_nil_iff_forall_not_mem]
    constructor
    · rintro ⟨g, hg, rfl, h⟩
      exact ⟨g, ⟨hg, h⟩, rfl⟩
    · rintro ⟨g, ⟨hg, h⟩, rfl⟩
      exact ⟨g, hg, rfl, h⟩
  refine ⟨⟨[], .nil, rfl⟩, ?_, by simp, fun id hid => (hready id).mpr hid,
    fun id hid => Or.inr ((hready id).mp hid)⟩
  exact (List.filter_sublist.map _).nodup hc.nodup_ids

theorem sorting_sortable (hc : c.WellFormed) : c.Sorting [] c.sortable :=
  (sorting_sources hc).takeReady hc (by simp)

theorem order_eq_ok {sorted : List GateId} :
    c.order = .ok sorted ↔ sorted = c.sortable ∧ ∀ id ∈ c.ids, id ∈ c.sortable := by
  unfold order
  dsimp only
  cases hf : c.ids.find? (!c.sortable.contains ·) with
  | some id =>
    simp only [reduceCtorEq, false_iff, not_and]
    intro _ hall
    have hno := List.find?_some hf
    rw [Bool.not_eq_true', Bool.eq_false_iff, Ne, List.contains_iff_mem] at hno
    exact hno (hall id (List.mem_of_find?_eq_some hf))
  | none =>
    have hall : ∀ id ∈ c.ids, id ∈ c.sortable := by
      simpa using List.find?_eq_none.mp hf
    rw [Except.ok.injEq]
    exact ⟨fun h => ⟨h.symm, hall⟩, fun h => h.1.symm⟩

theorem acyclic_of_order (hc : c.WellFormed) {sorted : List GateId} (h : c.order = .ok sorted) :
    c.Acyclic := by
  obtain ⟨rfl, hall⟩ := order_eq_ok.mp h
  obtain ⟨done, hd, hdone⟩ := (sorting_sortable hc).scheduled
  exact hd.acyclic hc fun id hid => hdone ▸ hall id hid

/-- Gates that can be scheduled in some way are among those that are sorted. -/
theorem Scheduled.mem_sortable {done : List Gate} (h : c.Scheduled done) (hc : c.WellFormed) :
    ∀ id ∈ done.map (·.id), id ∈ c.sortable := by
  induction h with
  | nil => simp
  | @snoc done g _ hg _ hin ih =>
    intro id hmem
    rw [List.map_append, List.mem_append] at hmem
    rcases hmem with hmem | hmem
    · exact ih id hmem
    · obtain rfl := List.mem_singleton.mp hmem
      have hready : c.isReady c.sortable g.id = true :=
        (isReady_iff hc).mpr ⟨g, hg, rfl, fun d hd => ih d (hin d hd)⟩
      simpa using (sorting_sortable hc).complete g.id hready

theorem exists_order (hc : c.WellFormed) (ha : c.Acyclic) : c.order = .ok c.sortable := by
  obtain ⟨gates, hp⟩ := exists_plan hc ha
  obtain ⟨hd, hall⟩ := plan_spec hc hp
  exact order_eq_ok.mpr ⟨rfl, fun id hid => hd.mem_sortable hc id ((hall id).mpr hid)⟩

theorem checkAcyclic_eq_ok (hc : c.WellFormed) : c.checkAcyclic = .ok () ↔ c.Acyclic := by
  unfold checkAcyclic
  constructor
  · intro h
    cases ho : c.order with
    | error e => rw [ho] at h; cases h
    | ok sorted => exact acyclic_of_order hc ho
  · intro ha
    rw [exists_order hc ha]
    rfl

end LogicCircuit.Circuit
