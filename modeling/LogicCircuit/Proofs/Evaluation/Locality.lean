import LogicCircuit.Circuit.Inputs
import LogicCircuit.Proofs.Circuit.Letters
import LogicCircuit.Proofs.Evaluation.Renaming

/-!
# What an evaluation depends on

The evaluation of a circuit reads the bits of the letters of the circuit. Other letters of the
assignment make no difference.

Results:
* `evaluate_congr`: assignments that agree on the letters of a circuit evaluate it alike.
* `WellFormed.sinks_ne_nil`: an acyclic circuit with a gate has an output.
-/

namespace LogicCircuit

theorem Gate.compute_congr_assignment {s t : Assignment} {g : Gate}
    (h : ∀ letter, g.kind = .var letter → s.get? letter = t.get? letter) (value : GateId → Value) :
    g.compute s value = g.compute t value := by
  unfold Gate.compute
  cases hk : g.kind with
  | var letter =>
    simp only [Assignment.value]
    rw [h letter hk]
  | const b => rfl
  | not => rfl
  | binary op => rfl

namespace Circuit

variable {c : Circuit}

/-! ## Other letters -/

theorem valuesAlong_congr {s t : Assignment} {gates : List Gate}
    (h : ∀ g ∈ gates, ∀ letter, g.kind = .var letter → s.get? letter = t.get? letter) :
    valuesAlong s gates = valuesAlong t gates := by
  induction gates using List.reverseRecOn with
  | nil => rfl
  | append_singleton gates g ih =>
    rw [valuesAlong_snoc, valuesAlong_snoc, ih fun a ha => h a (List.mem_append_left _ ha),
      Gate.compute_congr_assignment (h g (List.mem_append_right _ (List.mem_singleton_self g)))]

theorem evaluateAlong_congr (hc : c.WellFormed) {gates : List Gate} (hp : c.plan = .ok gates)
    {s t : Assignment} (h : ∀ l ∈ c.letters, s.get? l = t.get? l) :
    c.evaluateAlong gates s = c.evaluateAlong gates t := by
  have hvar : ∀ g ∈ gates, ∀ letter, g.kind = .var letter → s.get? letter = t.get? letter :=
    fun g hg letter hk => h letter (mem_letters.mpr ⟨g, (plan_spec hc hp).1.mem_gates g hg, hk⟩)
  unfold evaluateAlong
  rw [valuesAlong_congr hvar]

/-- Assignments that agree on the letters of a circuit evaluate it alike. -/
theorem evaluate_congr (hc : c.WellFormed) {s t : Assignment}
    (h : ∀ l ∈ c.letters, s.get? l = t.get? l) : c.evaluate s = c.evaluate t := by
  cases hp : c.plan with
  | error e => rw [evaluate, evaluate, hp]; rfl
  | ok gates =>
    rw [evaluate, evaluate, hp]
    exact congrArg Except.ok (evaluateAlong_congr hc hp h)

/-! ## Outputs -/

/-- In an acyclic circuit with a gate, the gate that is computed last is an output. -/
theorem WellFormed.sinks_ne_nil (hc : c.WellFormed) (ha : c.Acyclic) (hg : c.gates ≠ []) :
    c.sinks ≠ [] := by
  obtain ⟨gates, hp⟩ := exists_plan hc ha
  obtain ⟨hd, hall⟩ := plan_spec hc hp
  cases hd with
  | nil =>
    obtain ⟨g, hmem⟩ := List.exists_mem_of_ne_nil _ hg
    exact absurd ((hall g.id).mpr (mem_ids_of_mem hmem)) (by simp)
  | @snoc done g hd hmem hid hin =>
    have hsink : g.id ∈ c.sinks := by
      refine mem_sinks.mpr ⟨mem_ids_of_mem hmem, fun w hw hs => ?_⟩
      -- the wire enters a gate that was computed earlier, or the last one itself
      obtain ⟨t, ht, -, hdriver⟩ := (hc.wired _ _ _).mp (List.mem_map_of_mem (f := Wire.ends) hw)
      have hinput : g.id ∈ t.inputs := hs ▸ Gate.mem_inputs.mpr ⟨_, hdriver⟩
      obtain ⟨t', ht', hid'⟩ := List.mem_map.mp ((hall t.id).mpr (mem_ids_of_mem ht))
      rcases List.mem_append.mp ht' with ht' | ht'
      · obtain rfl := hc.eq_of_id_eq (hd.mem_gates t' ht') ht hid'
        exact hid (hd.input_mem t' ht' g.id hinput)
      · obtain rfl := List.mem_singleton.mp ht'
        obtain rfl := hc.eq_of_id_eq hmem ht hid'
        exact hid (hin _ hinput)
    exact List.ne_nil_of_mem hsink

end Circuit

end LogicCircuit
