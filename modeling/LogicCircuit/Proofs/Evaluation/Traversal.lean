import LogicCircuit.Evaluation
import LogicCircuit.Proofs.Circuit.Dependency

/-!
# The depth-first traversal

`Circuit.visit` finishes a gate after all gates it depends on. Its path holds the gates that have
been entered and not finished; meeting one of them again closes a loop. A gate is entered at most
once on a path, so a path is never longer than the list of gates, and the fuel never runs out.

Results:
* `visit_spec`: a visit schedules the gate and all it depends on, or meets a loop.
* `visit_fuel`: fuel beyond the number of gates changes nothing.
* `plan_spec`, `plan_eq_error`: the traversal of all gates schedules them, or meets a loop, which
  it does exactly when there is one.
-/

namespace LogicCircuit.Circuit

/-- What a visit of some gates may come to, given the path to them and the gates that were
finished before: more gates are scheduled, those visited among them and none of the path, or a
gate on a loop is reported. -/
def Visited (c : Circuit) (path : List GateId) (before : List Gate) (ids : List GateId) :
    Except LoopError (List Gate) → Prop
  | .ok done => c.Scheduled done ∧ before <+: done ∧ (∀ id ∈ ids, id ∈ done.map (·.id)) ∧
      ∀ p ∈ path, p ∉ done.map (·.id)
  | .error e => c.OnLoop e.gate

/-- A path of gates of the circuit, each entered once, all of which depend on a gate. -/
structure Trail (c : Circuit) (path : List GateId) (id : GateId) : Prop where
  nodup : path.Nodup
  mem : ∀ p ∈ path, p ∈ c.ids
  leads : ∀ p ∈ path, Relation.TransGen c.DependsOn p id

variable {c : Circuit}

theorem path_length_le {path : List GateId} (hn : path.Nodup) (hm : ∀ p ∈ path, p ∈ c.ids) :
    path.length ≤ c.gates.length := by
  have h := (List.subperm_of_subset hn hm).length_le
  rwa [ids, List.length_map] at h

theorem Trail.cons {path : List GateId} {g : Gate} (ht : c.Trail path g.id) (hg : g ∈ c.gates)
    (hp : g.id ∉ path) {d : GateId} (hd : d ∈ g.inputs) : c.Trail (g.id :: path) d := by
  have hdep : c.DependsOn g.id d := ⟨g, hg, rfl, hd⟩
  refine ⟨List.nodup_cons.mpr ⟨hp, ht.nodup⟩, ?_, ?_⟩
  · intro p hmem
    rcases List.mem_cons.mp hmem with rfl | hmem
    · exact mem_ids_of_mem hg
    · exact ht.mem p hmem
  · intro p hmem
    rcases List.mem_cons.mp hmem with rfl | hmem
    · exact .single hdep
    · exact (ht.leads p hmem).tail hdep

/-- Visits one after the other achieve together what each of them achieves. -/
theorem visited_foldlM {step : List Gate → GateId → Except LoopError (List Gate)}
    {path ids : List GateId}
    (hstep : ∀ id ∈ ids, ∀ done, c.Scheduled done → (∀ p ∈ path, p ∉ done.map (·.id)) →
      c.Visited path done [id] (step done id)) {done : List Gate} (hd : c.Scheduled done)
    (hp : ∀ p ∈ path, p ∉ done.map (·.id)) : c.Visited path done ids (ids.foldlM step done) := by
  induction ids generalizing done with
  | nil => exact ⟨hd, List.prefix_rfl, by simp, hp⟩
  | cons id ids ih =>
    have h₁ := hstep id List.mem_cons_self done hd hp
    rw [List.foldlM_cons]
    cases hs : step done id with
    | error e =>
      rw [hs] at h₁
      exact h₁
    | ok done₁ =>
      rw [hs] at h₁
      obtain ⟨hd₁, hpre₁, hid, hp₁⟩ := h₁
      have h₂ := ih (fun a ha => hstep a (List.mem_cons_of_mem _ ha)) hd₁ hp₁
      show c.Visited path done (id :: ids) (ids.foldlM step done₁)
      cases hf : ids.foldlM step done₁ with
      | error e =>
        rw [hf] at h₂
        exact h₂
      | ok done₂ =>
        rw [hf] at h₂
        obtain ⟨hd₂, hpre₂, hids, hp₂⟩ := h₂
        refine ⟨hd₂, hpre₁.trans hpre₂, ?_, hp₂⟩
        intro a ha
        rcases List.mem_cons.mp ha with rfl | ha
        · exact (hpre₂.map _).subset (hid a (List.mem_singleton_self a))
        · exact hids a ha

/-- A visit schedules the gate and all it depends on, or meets a loop. -/
theorem visit_spec (hc : c.WellFormed) {fuel : Nat} {path : List GateId} {done : List Gate}
    {id : GateId} (hid : id ∈ c.ids) (ht : c.Trail path id) (hd : c.Scheduled done)
    (hp : ∀ p ∈ path, p ∉ done.map (·.id)) (hf : c.gates.length < path.length + fuel) :
    c.Visited path done [id] (c.visit fuel path done id) := by
  induction fuel generalizing path done id with
  | zero =>
    have := path_length_le ht.nodup ht.mem
    omega
  | succ fuel ih =>
    rw [visit]
    split_ifs with hdone hpath
    · refine ⟨hd, List.prefix_rfl, ?_, hp⟩
      simpa [List.any_eq_true] using hdone
    · -- the gate is met again while it is being visited
      exact ht.leads id (by simpa using hpath)
    · obtain ⟨g, hg, rfl⟩ := mem_ids.mp hid
      rw [hc.gate?_eq_some.mpr ⟨hg, rfl⟩]
      have hfresh : g.id ∉ path := by simpa using hpath
      have hnot : g.id ∉ done.map (·.id) := by simpa [List.any_eq_true] using hdone
      have hvisit : c.Visited (g.id :: path) done g.inputs
          (g.inputs.foldlM (fun done d => c.visit fuel (g.id :: path) done d) done) := by
        refine visited_foldlM (fun d hmem done' hd' hp' => ?_) hd ?_
        · refine ih (hc.input_mem hg hmem) (ht.cons hg hfresh hmem) hd' hp' ?_
          rw [List.length_cons]
          omega
        · intro p hmem
          rcases List.mem_cons.mp hmem with rfl | hmem
          · exact hnot
          · exact hp p hmem
      dsimp only
      cases hfold : g.inputs.foldlM (fun done d => c.visit fuel (g.id :: path) done d) done with
      | error e =>
        rw [hfold] at hvisit
        exact hvisit
      | ok done' =>
        rw [hfold] at hvisit
        obtain ⟨hd', hpre, hin, hp'⟩ := hvisit
        have hself := hp' g.id List.mem_cons_self
        refine ⟨hd'.snoc hg hself hin, hpre.trans (List.prefix_append _ _), by simp, ?_⟩
        intro p hmem hmap
        rw [List.map_append, List.mem_append] at hmap
        rcases hmap with hmap | hmap
        · exact hp' p (List.mem_cons_of_mem _ hmem) hmap
        · obtain rfl := List.mem_singleton.mp hmap
          exact hfresh hmem

/-- Fuel beyond the number of gates changes nothing. -/
theorem visit_fuel {path : List GateId} (hn : path.Nodup) (hm : ∀ p ∈ path, p ∈ c.ids)
    {fuel fuel' : Nat} (hf : c.gates.length < path.length + fuel)
    (hf' : c.gates.length < path.length + fuel') (done : List Gate) (id : GateId) :
    c.visit fuel path done id = c.visit fuel' path done id := by
  have hle := path_length_le hn hm
  induction fuel generalizing fuel' path done id with
  | zero => omega
  | succ fuel ih =>
    obtain ⟨fuel', rfl⟩ : ∃ n, fuel' = n + 1 := ⟨fuel' - 1, by omega⟩
    rw [visit, visit]
    split_ifs with hdone hpath
    · rfl
    · rfl
    · cases hg : c.gate? id with
      | none => rfl
      | some g =>
        have hid : id ∈ c.ids := by
          obtain ⟨hmem, rfl⟩ := mem_of_gate? hg
          exact mem_ids_of_mem hmem
        have hn' : (id :: path).Nodup := List.nodup_cons.mpr ⟨by simpa using hpath, hn⟩
        have hm' : ∀ p ∈ id :: path, p ∈ c.ids := by
          intro p hp
          rcases List.mem_cons.mp hp with rfl | hp
          · exact hid
          · exact hm p hp
        have hstep : c.visit fuel (id :: path) = c.visit fuel' (id :: path) := by
          funext done d
          refine ih hn' hm' ?_ ?_ done d (path_length_le hn' hm') <;>
            (rw [List.length_cons]; omega)
        rw [hstep]

/-! ## All gates -/

theorem plan_visited (hc : c.WellFormed) : c.Visited [] [] c.ids c.plan := by
  refine visited_foldlM (fun id hid done hd hp => ?_) .nil (by simp)
  exact visit_spec hc hid ⟨.nil, by simp, by simp⟩ hd hp (by simp)

/-- The traversal of all gates schedules them, each once. -/
theorem plan_spec (hc : c.WellFormed) {gates : List Gate} (h : c.plan = .ok gates) :
    c.Scheduled gates ∧ ∀ id, id ∈ gates.map (·.id) ↔ id ∈ c.ids := by
  have hv := plan_visited hc
  rw [h] at hv
  obtain ⟨hd, -, hall, -⟩ := hv
  refine ⟨hd, fun id => ⟨fun hid => ?_, hall id⟩⟩
  obtain ⟨g, hg, rfl⟩ := List.mem_map.mp hid
  exact mem_ids_of_mem (hd.mem_gates g hg)

theorem plan_eq_error (hc : c.WellFormed) {e : LoopError} (h : c.plan = .error e) :
    c.OnLoop e.gate := by
  have hv := plan_visited hc
  rwa [h] at hv

theorem exists_plan (hc : c.WellFormed) (ha : c.Acyclic) : ∃ gates, c.plan = .ok gates := by
  cases h : c.plan with
  | error e => exact absurd (plan_eq_error hc h) (ha e.gate)
  | ok gates => exact ⟨gates, rfl⟩

theorem acyclic_of_plan (hc : c.WellFormed) {gates : List Gate} (h : c.plan = .ok gates) :
    c.Acyclic := by
  obtain ⟨hd, hall⟩ := plan_spec hc h
  exact hd.acyclic hc fun id hid => (hall id).mpr hid

end LogicCircuit.Circuit
