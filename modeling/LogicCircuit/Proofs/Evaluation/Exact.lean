import LogicCircuit.Proofs.Association
import LogicCircuit.Proofs.Circuit.Reachable
import LogicCircuit.Proofs.Evaluation.Search

/-!
# Evaluation is exact

Every gate of a circuit stands for an equation between its value and those of the gates that fill
its slots. The evaluation of an acyclic circuit is the one solution of all these equations; a
circuit with a loop has no evaluation, wherever the loop is.

Results:
* `Gate.equation_iff`: the equation of a gate says that its value is the computed one.
* `Scheduled.equation`, `Scheduled.unique`: computing scheduled gates in order solves their
  equations, and no other values do.
* `evaluate_exact`: the evaluation of every reachable circuit.
-/

namespace LogicCircuit

/-! ## The equation of a gate -/

namespace Gate

/-- The slot is filled by a gate that carries the bit. -/
def Receives (value : GateId → Value) (g : Gate) (slot : Nat) (bit : Bool) : Prop :=
  ∃ d, g.slots[slot]? = some (some d) ∧ value d = .known bit

/-- The equation that a gate stands for. The value of an inverter or of a binary gate is a bit
exactly when all its inputs are, and unset otherwise. -/
def Equation (s : Assignment) (value : GateId → Value) (g : Gate) : Prop :=
  match g.kind with
  | .const b => value g.id = .known b
  | .var letter => value g.id = .ofBit? (s.get? letter)
  | .not => ∀ b, value g.id = .known b ↔ ∃ x, g.Receives value 0 x ∧ b = !x
  | .binary op => ∀ b, value g.id = .known b ↔
      ∃ x y, g.Receives value 0 x ∧ g.Receives value 1 y ∧ b = op.apply x y

theorem inputValue_eq_known {value : GateId → Value} {g : Gate} {slot : Nat} {bit : Bool} :
    g.inputValue value slot = .known bit ↔ g.Receives value slot bit := by
  unfold inputValue Receives
  cases hd : g.driver? slot with
  | none =>
    have hno : ∀ d, g.slots[slot]? ≠ some (some d) := by
      intro d hs
      rw [← driver?_eq_some, hd] at hs
      cases hs
    simp [hno]
  | some d =>
    rw [driver?_eq_some] at hd
    simp [hd]

theorem eq_of_known_iff {v w : Value} (h : ∀ b, v = .known b ↔ w = .known b) : v = w := by
  cases w with
  | known b => exact (h b).mpr rfl
  | unset =>
    cases v with
    | known b => exact absurd ((h b).mp rfl) (by simp)
    | unset => rfl

theorem complement_eq_known {v : Value} {b : Bool} :
    v.complement = .known b ↔ ∃ x, v = .known x ∧ b = !x := by
  cases v <;> simp [Value.complement, eq_comm]

theorem combine_eq_known {op : Operator} {v w : Value} {b : Bool} :
    op.combine v w = .known b ↔ ∃ x y, v = .known x ∧ w = .known y ∧ b = op.apply x y := by
  cases v <;> cases w <;> simp [Operator.combine, eq_comm]

/-- The equation of a gate says that its value is the one computed from the others. -/
theorem equation_iff {s : Assignment} {value : GateId → Value} {g : Gate} :
    g.Equation s value ↔ value g.id = g.compute s value := by
  unfold Equation compute
  cases g.kind with
  | const b => rfl
  | var letter => rfl
  | not =>
    simp only [← inputValue_eq_known, ← complement_eq_known]
    exact ⟨eq_of_known_iff, fun h b => by rw [h]⟩
  | binary op =>
    simp only [← inputValue_eq_known, ← combine_eq_known]
    exact ⟨eq_of_known_iff, fun h b => by rw [h]⟩

/-- A gate is computed from the gates that fill its slots and from no others. -/
theorem compute_congr {s : Assignment} {v w : GateId → Value} {g : Gate}
    (h : ∀ d ∈ g.inputs, v d = w d) : g.compute s v = g.compute s w := by
  have hin : ∀ slot, g.inputValue v slot = g.inputValue w slot := by
    intro slot
    unfold inputValue
    cases hd : g.driver? slot with
    | none => rfl
    | some d => exact h d (mem_inputs.mpr ⟨slot, hd⟩)
  unfold compute
  rw [hin 0, hin 1]

end Gate

/-! ## Computing scheduled gates in order -/

namespace Circuit

theorem valuesAlong_snoc (s : Assignment) (done : List Gate) (g : Gate) :
    valuesAlong s (done ++ [g]) =
      (g.id, g.compute s (Evaluation.valueIn (valuesAlong s done))) :: valuesAlong s done := by
  simp [valuesAlong, List.foldl_append]

theorem valueIn_cons (id : GateId) (v : Value) (values : List (GateId × Value)) (a : GateId) :
    Evaluation.valueIn ((id, v) :: values) a =
      if a = id then v else Evaluation.valueIn values a := by
  unfold Evaluation.valueIn
  rw [lookup_cons_eq_ite]
  split_ifs <;> rfl

theorem map_fst_valuesAlong (s : Assignment) (gates : List Gate) :
    (valuesAlong s gates).map (·.1) = (gates.map (·.id)).reverse := by
  induction gates using List.reverseRecOn with
  | nil => rfl
  | append_singleton done g ih => simp [valuesAlong_snoc, ih]

namespace Scheduled

variable {c : Circuit} {done : List Gate}

/-- Computing scheduled gates in order solves their equations. -/
theorem equation (h : c.Scheduled done) (s : Assignment) :
    ∀ g ∈ done, g.Equation s (Evaluation.valueIn (valuesAlong s done)) := by
  induction h with
  | nil => simp
  | @snoc done g hd _ hid hin ih =>
    -- the new gate is not among the inputs computed so far, so their values stay
    have hkeep : ∀ d ∈ done.map (·.id), Evaluation.valueIn (valuesAlong s (done ++ [g])) d =
        Evaluation.valueIn (valuesAlong s done) d := by
      intro d hmem
      rw [valuesAlong_snoc, valueIn_cons, if_neg]
      rintro rfl
      exact hid hmem
    intro a ha
    rw [Gate.equation_iff]
    rcases List.mem_append.mp ha with ha | ha
    · rw [hkeep a.id (List.mem_map_of_mem ha), Gate.equation_iff.mp (ih a ha)]
      exact Gate.compute_congr fun d hmem => (hkeep d (hd.input_mem a ha d hmem)).symm
    · obtain rfl := List.mem_singleton.mp ha
      have hval : Evaluation.valueIn (valuesAlong s (done ++ [a])) a.id =
          a.compute s (Evaluation.valueIn (valuesAlong s done)) := by
        rw [valuesAlong_snoc, valueIn_cons, if_pos rfl]
      rw [hval]
      exact Gate.compute_congr fun d hmem => (hkeep d (hin d hmem)).symm

/-- The equations of scheduled gates have one solution. -/
theorem unique (h : c.Scheduled done) {s : Assignment} {v w : GateId → Value}
    (hv : ∀ g ∈ done, g.Equation s v) (hw : ∀ g ∈ done, g.Equation s w) :
    ∀ id ∈ done.map (·.id), v id = w id := by
  induction h with
  | nil => simp
  | @snoc done g _ _ _ hin ih =>
    have hold := ih (fun a ha => hv a (List.mem_append_left _ ha))
      fun a ha => hw a (List.mem_append_left _ ha)
    have hg : g ∈ done ++ [g] := List.mem_append_right _ (List.mem_singleton_self g)
    intro id hmem
    rw [List.map_append, List.mem_append] at hmem
    rcases hmem with hmem | hmem
    · exact hold id hmem
    · obtain rfl := List.mem_singleton.mp hmem
      rw [Gate.equation_iff.mp (hv g hg), Gate.equation_iff.mp (hw g hg)]
      exact Gate.compute_congr fun d hd => hold d (hin d hd)

end Scheduled

/-! ## The evaluation of a circuit -/

variable {c : Circuit}

/-- The evaluation gives a value to every gate of the circuit and to nothing else, the values are
the only solution of the equations of the gates, and the outputs are the values of the gates that
no wire leaves, in ascending order. -/
structure ExactUnder (c : Circuit) (s : Assignment) (e : Evaluation) : Prop where
  defined : ∀ id, (e.values.lookup id).isSome = true ↔ id ∈ c.ids
  solves : ∀ g ∈ c.gates, g.Equation s e.value
  only : ∀ v : GateId → Value, (∀ g ∈ c.gates, g.Equation s v) → ∀ id ∈ c.ids, v id = e.value id
  ascending : e.sinks.Pairwise (· < ·)
  sinks : ∀ id, id ∈ e.sinks ↔ id ∈ c.ids ∧ ∀ w ∈ c.wires, w.source ≠ id
  outputs : e.outputs = e.sinks.map e.value

theorem evaluateAlong_exact (hc : c.WellFormed) {gates : List Gate} (h : c.plan = .ok gates)
    (s : Assignment) : c.ExactUnder s (c.evaluateAlong gates s) := by
  obtain ⟨hd, hall⟩ := plan_spec hc h
  have hgates : ∀ g ∈ c.gates, g ∈ gates := by
    intro g hg
    obtain ⟨g', hg', hid⟩ := List.mem_map.mp ((hall g.id).mpr (mem_ids_of_mem hg))
    rwa [← hc.eq_of_id_eq (hd.mem_gates g' hg') hg hid]
  refine ⟨fun id => ?_, fun g hg => hd.equation s g (hgates g hg), fun v hv id hid => ?_,
    hc.ascending_sinks, fun id => mem_sinks, rfl⟩
  · have hkey : ((valuesAlong s gates).lookup id).isSome = true ↔
        id ∈ (valuesAlong s gates).map (·.1) := by
      rw [List.lookup_isSome_iff, List.mem_map]
      exact exists_congr fun p => and_congr_right fun _ => by rw [beq_iff_eq, eq_comm]
    rw [← hall id, ← List.mem_reverse, ← map_fst_valuesAlong s gates]
    exact hkey
  · exact hd.unique (fun g hg => hv g (hd.mem_gates g hg)) (hd.equation s) id ((hall id).mpr hid)

theorem exactUnder_of_evaluate (hc : c.WellFormed) {s : Assignment} {e : Evaluation}
    (h : c.evaluate s = .ok e) : c.ExactUnder s e := by
  obtain ⟨gates, hp, rfl⟩ := map_eq_ok.mp h
  exact evaluateAlong_exact hc hp s

theorem sinks_evaluate {s : Assignment} {e : Evaluation} (h : c.evaluate s = .ok e) :
    e.sinks = c.sinks := by
  obtain ⟨gates, -, rfl⟩ := map_eq_ok.mp h
  rfl

theorem evaluate_acyclic (hc : c.WellFormed) (ha : c.Acyclic) (s : Assignment) :
    ∃ e, c.evaluate s = .ok e ∧ c.ExactUnder s e := by
  obtain ⟨gates, h⟩ := exists_plan hc ha
  exact ⟨c.evaluateAlong gates s, by rw [evaluate, h]; rfl, evaluateAlong_exact hc h s⟩

theorem evaluate_looped (hc : c.WellFormed) (ha : ¬ c.Acyclic) :
    ∃ id, c.OnLoop id ∧ ∀ s, c.evaluate s = .error ⟨id⟩ := by
  cases h : c.plan with
  | ok gates => exact absurd (acyclic_of_plan hc h) ha
  | error e => exact ⟨e.gate, plan_eq_error hc h, fun s => by rw [evaluate, h]; rfl⟩

/-- The evaluation of an acyclic circuit succeeds and is exact under every assignment. A circuit
with a loop, even one that no output depends on, has no evaluation under any assignment, and the
same gate on a loop is blamed for it each time. The traversal ends by itself: as a loop with a stack
it makes four passes for each gate at most and comes to the same, and going deeper than there are
gates would not change what it comes to. -/
theorem evaluate_exact (hc : c.Reachable) :
    (c.Acyclic → ∀ s, ∃ e, c.evaluate s = .ok e ∧ c.ExactUnder s e) ∧
    (¬ c.Acyclic → ∃ id, c.OnLoop id ∧ ∀ s, c.evaluate s = .error ⟨id⟩) ∧
    (∃ n ≤ 4 * c.gates.length, ∀ m r, c.search.Runs c m r ↔ m = n ∧ r = c.plan) ∧
    ∀ fuel, c.gates.length < fuel →
      c.ids.foldlM (fun done id => c.visit fuel [] done id) [] = c.plan := by
  refine ⟨evaluate_acyclic hc.wellFormed, evaluate_looped hc.wellFormed,
    search_runs_iff hc.wellFormed, fun fuel hf => ?_⟩
  have hvisit : c.visit fuel [] = c.visit (c.gates.length + 1) [] := by
    funext done id
    exact visit_fuel .nil (by simp) (by simpa using hf) (by simp) done id
  rw [plan, hvisit]

/-- A letter drives both inputs of one gate, and the first input of another whose second one is
empty. -/
def sharedInput : Circuit :=
  [Edit.addGate (.var 'a') {}, .addGate (.binary .xor) {}, .addGate (.binary .nor) {},
    .connect 0 1 0, .connect 0 1 1, .connect 0 2 0].foldl Edit.apply empty

/-- Two inverters in a ring beside a constant, which is the only output. -/
def ringBeside : Circuit :=
  [Edit.addGate .not {}, .addGate .not {}, .addGate (.const true) {},
    .connect 0 1 0, .connect 1 0 0].foldl Edit.apply empty

theorem evaluate_exact_shared_and_ring :
    (sharedInput.Reachable ∧ sharedInput.Acyclic ∧
      ∃ e, sharedInput.evaluate {} = .ok e ∧ sharedInput.ExactUnder {} e) ∧
    ringBeside.Reachable ∧ ¬ ringBeside.Acyclic ∧
      ∃ id, ringBeside.OnLoop id ∧ ∀ s, ringBeside.evaluate s = .error ⟨id⟩ := by
  have hs : sharedInput.Reachable := Reachable.empty.edits
    ⟨(by decide : 0 < idBound), (by decide : 1 < idBound), (by decide : 2 < idBound), trivial,
      trivial, trivial, trivial⟩
  have hr : ringBeside.Reachable := Reachable.empty.edits
    ⟨(by decide : 0 < idBound), (by decide : 1 < idBound), (by decide : 2 < idBound), trivial,
      trivial, trivial⟩
  have hplan : sharedInput.plan = .ok sharedInput.gates := rfl
  have hsa : sharedInput.Acyclic := acyclic_of_plan hs.wellFormed hplan
  have hra : ¬ ringBeside.Acyclic := by
    intro h
    refine h 0 (.tail (b := 1) (.single ?_) ?_)
    · exact ⟨_, List.mem_cons_self, rfl, by decide⟩
    · exact ⟨_, List.mem_cons_of_mem _ List.mem_cons_self, rfl, by decide⟩
  exact ⟨⟨hs, hsa, (evaluate_exact hs).1 hsa {}⟩, hr, hra, (evaluate_exact hr).2.1 hra⟩

end Circuit

end LogicCircuit
