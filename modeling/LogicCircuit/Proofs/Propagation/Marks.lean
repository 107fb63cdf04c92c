import LogicCircuit.Proofs.Circuit.Reachable
import LogicCircuit.Proofs.Evaluation.Locality
import LogicCircuit.Proofs.Propagation.Level

/-!
# What the steps of a propagation mark

After step `n` of a propagation the gates of levels up to `n` are marked, and the wires that enter
them. `Circuit.Marked` says so. The next step then finds the gates of level `n + 1`, so it keeps
this up. Marks are not read by an evaluation, and neither values nor evaluations change marks.

Results:
* `Marked.mem_frontier`: the next step reaches exactly the gates of the next level.
* `marked_start`, `Marked.mark`: what holds after the start and after every further step.
* `Marked.continueFrom_of_level`, `Marked.continueFrom_of_no_level`: what the next step answers.
-/

namespace LogicCircuit.Circuit

variable {c : Circuit}

/-! ## Marking gates -/

theorem gates_activateAll (c : Circuit) (ids : List GateId) : (c.activateAll ids).gates =
    c.gates.map fun g => { g with active := g.active || decide (g.id ∈ ids) } := by
  unfold activateAll
  induction ids generalizing c with
  | nil => simp
  | cons id ids ih =>
    rw [List.foldl_cons, ih]
    show (c.gates.map _).map _ = _
    rw [List.map_map]
    refine List.map_congr_left fun g _ => ?_
    by_cases h : g.id = id <;> simp [h]

theorem wires_activateAll (c : Circuit) (ids : List GateId) : (c.activateAll ids).wires =
    c.wires.map fun w => { w with active := w.active || decide (w.target ∈ ids) } := by
  unfold activateAll
  induction ids generalizing c with
  | nil => simp
  | cons id ids ih =>
    rw [List.foldl_cons, ih]
    show (c.wires.map _).map _ = _
    rw [List.map_map]
    refine List.map_congr_left fun w _ => ?_
    by_cases h : w.target = id <;> simp [h]

/-- Marks are all that marking changes. -/
theorem clearActivity_activateAll (c : Circuit) (ids : List GateId) :
    (c.activateAll ids).clearActivity = c.clearActivity := by
  have hnext : (c.activateAll ids).nextId = c.nextId :=
    congrArg (·.2.2) (c.skeleton_activateAll ids)
  unfold clearActivity
  rw [gates_activateAll, wires_activateAll, hnext, List.map_map, List.map_map]
  rfl

/-- Marks are not read by an evaluation. -/
theorem evaluate_activateAll (c : Circuit) (ids : List GateId) (s : Assignment) :
    (c.activateAll ids).evaluate s = c.evaluate s :=
  evaluate_of_skeleton (c.skeleton_activateAll ids) s

theorem inputAssignment_activateAll (c : Circuit) (ids : List GateId) :
    (c.activateAll ids).inputAssignment = c.inputAssignment := by
  unfold inputAssignment
  rw [gates_activateAll, List.foldl_map]
  rfl

/-! ## What is marked -/

/-- The marks of a propagation whose last step was the given one. -/
structure Marked (c : Circuit) (n : Nat) : Prop where
  gates : ∀ g ∈ c.gates, g.active = true ↔ c.ReachedBy n g.id
  /-- A wire is marked with the gate that it enters. -/
  wires : ∀ w ∈ c.wires, w.active = true ↔ ∃ g ∈ c.gates, g.id = w.target ∧ g.active = true
  bound : n ≤ c.gates.length

theorem Marked.mapGates {n : Nat} (h : c.Marked n) {f : Gate → Gate}
    (hf : ∀ g, (f g).frame = g.frame ∧ (f g).active = g.active) : (c.mapGates f).Marked n := by
  have hframes := frames_of_skeleton (c.skeleton_mapGates fun g => (hf g).1)
  refine ⟨fun g hg => ?_, fun w hw => ?_, ?_⟩
  · obtain ⟨g, hmem, rfl⟩ := List.mem_map.mp hg
    rw [(hf g).2, Gate.id_of_frame (hf g).1, reachedBy_iff_of_frames hframes]
    exact h.gates g hmem
  · rw [h.wires w hw]
    constructor
    · rintro ⟨g, hg, hid, ha⟩
      exact ⟨f g, List.mem_map_of_mem hg, (Gate.id_of_frame (hf g).1).trans hid, (hf g).2.trans ha⟩
    · rintro ⟨g, hg, hid, ha⟩
      obtain ⟨g, hmem, rfl⟩ := List.mem_map.mp hg
      exact ⟨g, hmem, (Gate.id_of_frame (hf g).1).symm.trans hid, (hf g).2.symm.trans ha⟩
  · exact h.bound.trans_eq (List.length_map _).symm

theorem Marked.applyValues {n : Nat} (h : c.Marked n) (value : GateId → Value) :
    (c.applyValues value).Marked n := by
  refine h.mapGates fun g => ?_
  split <;> exact ⟨rfl, rfl⟩

/-- Marking the gates that have just been reached, and the wires that enter them. -/
theorem marked_activateAll {n : Nat} {ids : List GateId} (hids : ∀ g ∈ c.gates,
      (g.active = true ∨ g.id ∈ ids) ↔ c.ReachedBy n g.id)
    (hwires : ∀ w ∈ c.wires, w.active = true ↔ ∃ g ∈ c.gates, g.id = w.target ∧ g.active = true)
    (hc : c.WellFormed) (hbound : n ≤ c.gates.length) : (c.activateAll ids).Marked n := by
  have hframes := frames_of_skeleton (c.skeleton_activateAll ids)
  refine ⟨fun g hg => ?_, fun w hw => ?_, ?_⟩
  · rw [gates_activateAll] at hg
    obtain ⟨g, hmem, rfl⟩ := List.mem_map.mp hg
    rw [reachedBy_iff_of_frames hframes, ← hids g hmem]
    simp
  · rw [wires_activateAll] at hw
    obtain ⟨w, hmem, rfl⟩ := List.mem_map.mp hw
    rw [gates_activateAll]
    obtain ⟨g, hg, hid⟩ := mem_ids.mp (hc.target_mem hmem)
    simp only [Bool.or_eq_true, hwires w hmem, decide_eq_true_eq, List.mem_map]
    constructor
    · rintro (⟨g, hg, hid, ha⟩ | hnew)
      · exact ⟨_, ⟨g, hg, rfl⟩, hid, by simp [ha]⟩
      · exact ⟨_, ⟨g, hg, rfl⟩, hid, by simp [hid, hnew]⟩
    · rintro ⟨_, ⟨g, hg, rfl⟩, hid, ha⟩
      rcases Bool.or_eq_true_iff.mp ha with ha | ha
      · exact .inl ⟨g, hg, hid, ha⟩
      · exact .inr (hid ▸ of_decide_eq_true ha)
  · rw [gates_activateAll, List.length_map]
    exact hbound

/-! ## The start -/

theorem mem_sources {g : Gate} (hc : c.WellFormed) (hg : g ∈ c.gates) :
    g.id ∈ c.sources ↔ g.kind.arity = 0 := by
  unfold sources GateKind.isSource
  rw [List.mem_map]
  constructor
  · rintro ⟨g', hg', hid⟩
    obtain ⟨hg', h0⟩ := List.mem_filter.mp hg'
    obtain rfl := hc.eq_of_id_eq hg' hg hid
    simpa using h0
  · intro h0
    exact ⟨g, List.mem_filter.mpr ⟨hg, by simpa using h0⟩, rfl⟩

theorem marked_start (hc : c.WellFormed) : (c.clearActivity.activateAll c.sources).Marked 0 := by
  have hskeleton := c.skeleton_clearActivity
  refine marked_activateAll (fun g hg => ?_) (fun w hw => ?_) (hc.of_skeleton_eq hskeleton)
    (Nat.zero_le _)
  · obtain ⟨g, hmem, rfl⟩ := List.mem_map.mp hg
    rw [reachedBy_iff_of_frames (frames_of_skeleton hskeleton)]
    rw [show c.ReachedBy 0 _ ↔ _ from reachedBy_zero_iff hc hmem, ← mem_sources hc hmem]
    simp
  · obtain ⟨w, hw, rfl⟩ := List.mem_map.mp hw
    simp [clearActivity]

/-! ## The steps that follow -/

theorem isActive_iff (hc : c.WellFormed) {id : GateId} :
    c.isActive id = true ↔ ∃ g ∈ c.gates, g.id = id ∧ g.active = true := by
  unfold isActive
  cases hg : c.gate? id with
  | none =>
    simp only [Option.map_none, Option.getD_none, Bool.false_eq_true, false_iff]
    rintro ⟨g, hmem, hid, -⟩
    exact gate?_eq_none.mp hg (mem_ids.mpr ⟨g, hmem, hid⟩)
  | some g =>
    obtain ⟨hmem, hid⟩ := mem_of_gate? hg
    constructor
    · exact fun ha => ⟨g, hmem, hid, ha⟩
    · rintro ⟨g', hg', hid', ha⟩
      obtain rfl := hc.eq_of_id_eq hg' hmem (hid'.trans hid.symm)
      exact ha

theorem ascending_frontier (hc : c.WellFormed) : c.frontier.Pairwise (· < ·) :=
  hc.ascending.sublist (List.filter_sublist.map _)

namespace Marked

variable {n : Nat}

theorem isActive_iff (h : c.Marked n) (hc : c.WellFormed) {id : GateId} :
    c.isActive id = true ↔ c.ReachedBy n id := by
  rw [Circuit.isActive_iff hc]
  constructor
  · rintro ⟨g, hg, rfl, ha⟩
    exact (h.gates g hg).mp ha
  · intro hr
    have ⟨m, _, hm⟩ := hr
    obtain ⟨g, hg, rfl⟩ := mem_ids.mp hm.mem_ids
    exact ⟨g, hg, rfl, (h.gates g hg).mpr hr⟩

/-- The next step reaches exactly the gates of the next level. -/
theorem mem_frontier (h : c.Marked n) (hc : c.WellFormed) {id : GateId} :
    id ∈ c.frontier ↔ c.HasLevel id (n + 1) := by
  unfold frontier
  rw [List.mem_map]
  constructor
  · rintro ⟨g, hg, rfl⟩
    obtain ⟨hg, hf⟩ := List.mem_filter.mp hg
    simp only [Bool.and_eq_true, Bool.not_eq_true', List.isEmpty_eq_false_iff, List.all_eq_true,
      h.isActive_iff hc] at hf
    obtain ⟨⟨ha, hne⟩, hin⟩ := hf
    have hnew : ¬ c.ReachedBy n g.id := by
      rw [← h.gates g hg, ha]
      exact Bool.false_ne_true
    exact (hasLevel_succ_iff hc hg hnew).mpr ⟨hne, hin⟩
  · intro hl
    obtain ⟨g, hg, rfl⟩ := mem_ids.mp hl.mem_ids
    have hnew : ¬ c.ReachedBy n g.id := by
      rintro ⟨m, hm, hl'⟩
      have := hl.unique hc hl'
      omega
    obtain ⟨hne, hin⟩ := inputs_reachedBy hc hg hl
    refine ⟨g, List.mem_filter.mpr ⟨hg, ?_⟩, rfl⟩
    simp only [Bool.and_eq_true, Bool.not_eq_true', List.isEmpty_eq_false_iff, List.all_eq_true,
      h.isActive_iff hc]
    refine ⟨⟨?_, hne⟩, hin⟩
    rw [← Bool.not_eq_true, h.gates g hg]
    exact hnew

/-- The marks after the next step. -/
theorem mark (h : c.Marked n) (hc : c.WellFormed) {id : GateId} (hl : c.HasLevel id (n + 1)) :
    (c.activateAll c.frontier).Marked (n + 1) := by
  refine marked_activateAll (fun g hg => ?_) h.wires hc (hl.lt_length hc).le
  rw [reachedBy_succ_iff, h.gates g hg, h.mem_frontier hc]

/-- A step after which no gate was left to reach ends the propagation. -/
theorem continueFrom_of_no_level (h : c.Marked n) (hc : c.WellFormed)
    (hl : ∀ id, ¬ c.HasLevel id (n + 1)) :
    Propagation.continueFrom n c =
      { result := .ok .finished, propagation := .idle, circuit := c } := by
  have hnil : c.frontier = [] :=
    List.eq_nil_iff_forall_not_mem.mpr fun id hid => hl id ((h.mem_frontier hc).mp hid)
  unfold Propagation.continueFrom
  simp [hnil]

/-- A gate of the next level is reached: there are enough gates for the step to be made. -/
theorem continueFrom_of_level (h : c.Marked n) (hc : c.WellFormed) {id : GateId}
    (hl : c.HasLevel id (n + 1)) :
    (∀ values, c.evaluate c.inputAssignment = .ok values → Propagation.continueFrom n c =
      { result := .ok (.reached (n + 1) c.frontier values)
        propagation := ⟨some (n + 1)⟩
        circuit := (c.activateAll c.frontier).applyValues values.value }) ∧
    ∀ e, c.evaluate c.inputAssignment = .error e → Propagation.continueFrom n c =
      { result := .error e, propagation := .idle, circuit := c.activateAll c.frontier } := by
  have hne : c.frontier ≠ [] := List.ne_nil_of_mem ((h.mem_frontier hc).mpr hl)
  have hlength := hl.lt_length hc
  have hgo : ¬ (c.frontier.isEmpty || decide (c.gates.length < n + 1)) = true := by
    simp only [Bool.or_eq_true, List.isEmpty_iff, hne, decide_eq_true_eq, false_or]
    omega
  have hmarked : (c.activateAll c.frontier).evaluate (c.activateAll c.frontier).inputAssignment =
      c.evaluate c.inputAssignment := by
    rw [evaluate_activateAll, inputAssignment_activateAll]
  constructor
  · intro values hv
    unfold Propagation.continueFrom
    dsimp only
    rw [if_neg hgo, hmarked.trans hv]
  · intro e he
    unfold Propagation.continueFrom
    dsimp only
    rw [if_neg hgo, hmarked.trans he]

end Marked

end LogicCircuit.Circuit
