import LogicCircuit.Proofs.Circuit.WellFormed

/-!
# Dependencies between gates

A gate depends on the gates that fill its slots. A circuit is acyclic if no gate depends on itself
through others, and gates are scheduled if each comes after those it depends on.

Results:
* `acyclic_of_lt`: a circuit is acyclic if its gates are driven from behind only.
* `acyclic_iff_of_frames`: whether it is depends on the kinds and the slots of its gates only.
* `Scheduled.acyclic`: a circuit whose gates can all be scheduled is acyclic.
-/

namespace LogicCircuit.Circuit

/-- The first gate has a slot that the second one fills. -/
def DependsOn (c : Circuit) (a b : GateId) : Prop := ∃ g ∈ c.gates, g.id = a ∧ b ∈ g.inputs

/-- The gate depends on itself, directly or through others. -/
def OnLoop (c : Circuit) (id : GateId) : Prop := Relation.TransGen c.DependsOn id id

def Acyclic (c : Circuit) : Prop := ∀ id, ¬ c.OnLoop id

theorem mem_ids_of_dependsOn {c : Circuit} {a b : GateId} (h : c.DependsOn a b) : a ∈ c.ids := by
  obtain ⟨g, hg, rfl, -⟩ := h
  exact mem_ids_of_mem hg

theorem OnLoop.mem_ids {c : Circuit} {id : GateId} (h : c.OnLoop id) : id ∈ c.ids := by
  obtain ⟨b, hb, -⟩ := Relation.TransGen.head'_iff.mp h
  exact mem_ids_of_dependsOn hb

/-- A gate depends on those from which a wire leads to it. -/
theorem WellFormed.dependsOn_iff_wire {c : Circuit} (hc : c.WellFormed) {a b : GateId} :
    c.DependsOn a b ↔ ∃ w ∈ c.wires, w.target = a ∧ w.source = b := by
  constructor
  · rintro ⟨g, hg, rfl, hb⟩
    obtain ⟨slot, hd⟩ := Gate.mem_inputs.mp hb
    obtain ⟨w, hw, he⟩ := List.mem_map.mp ((hc.wired b g.id slot).mpr ⟨g, hg, rfl, hd⟩)
    simp only [Wire.ends, Prod.mk.injEq] at he
    exact ⟨w, hw, he.2.1, he.1⟩
  · rintro ⟨w, hw, rfl, rfl⟩
    obtain ⟨g, hg, hid, hd⟩ := (hc.wired _ _ _).mp (List.mem_map_of_mem (f := Wire.ends) hw)
    exact ⟨g, hg, hid, Gate.mem_inputs.mpr ⟨_, hd⟩⟩

/-- A circuit is acyclic if every gate is driven by gates further behind only. -/
theorem acyclic_of_lt {c : Circuit} (h : ∀ a b, c.DependsOn a b → a < b) : c.Acyclic := by
  have hlt : ∀ a b, Relation.TransGen c.DependsOn a b → a < b := by
    intro a b hab
    induction hab with
    | single hab => exact h _ _ hab
    | tail _ hbc ih => exact ih.trans (h _ _ hbc)
  exact fun id hloop => lt_irrefl id (hlt id id hloop)

section Frames

variable {c d : Circuit} (h : d.gates.map Gate.frame = c.gates.map Gate.frame)
include h

theorem dependsOn_of_frames {a b : GateId} (hd : d.DependsOn a b) : c.DependsOn a b := by
  obtain ⟨g, hg, rfl, hb⟩ := hd
  obtain ⟨g', hg', hid, -, hs⟩ := exists_gate_of_frames h hg
  exact ⟨g', hg', hid, by rwa [Gate.inputs, hs]⟩

theorem acyclic_iff_of_frames : d.Acyclic ↔ c.Acyclic := by
  have hdep : d.DependsOn = c.DependsOn := by
    funext a b
    exact propext ⟨dependsOn_of_frames h, dependsOn_of_frames h.symm⟩
  unfold Acyclic OnLoop
  rw [hdep]

end Frames

/-- The gates belong to the circuit, and each comes once and after all it depends on. -/
inductive Scheduled (c : Circuit) : List Gate → Prop
  | nil : Scheduled c []
  | snoc {done : List Gate} {g : Gate} (h : Scheduled c done) (hg : g ∈ c.gates)
      (hid : g.id ∉ done.map (·.id)) (hin : ∀ d ∈ g.inputs, d ∈ done.map (·.id)) :
      Scheduled c (done ++ [g])

namespace Scheduled

variable {c : Circuit} {done : List Gate}

theorem mem_gates (h : c.Scheduled done) : ∀ g ∈ done, g ∈ c.gates := by
  induction h with
  | nil => simp
  | snoc _ hg _ _ ih =>
    intro a ha
    rcases List.mem_append.mp ha with ha | ha
    · exact ih a ha
    · obtain rfl := List.mem_singleton.mp ha
      exact hg

theorem input_mem (h : c.Scheduled done) :
    ∀ g ∈ done, ∀ d ∈ g.inputs, d ∈ done.map (·.id) := by
  induction h with
  | nil => simp
  | snoc _ _ _ hin ih =>
    intro a ha d hd
    rw [List.map_append, List.mem_append]
    rcases List.mem_append.mp ha with ha | ha
    · exact Or.inl (ih a ha d hd)
    · obtain rfl := List.mem_singleton.mp ha
      exact Or.inl (hin d hd)

/-- No chain of dependencies goes down forever from a scheduled gate. -/
theorem acc (h : c.Scheduled done) (hc : c.WellFormed) :
    ∀ g ∈ done, Acc (Function.swap c.DependsOn) g.id := by
  induction h with
  | nil => simp
  | @snoc done g _ hg _ hin ih =>
    intro a ha
    rcases List.mem_append.mp ha with ha | ha
    · exact ih a ha
    · obtain rfl := List.mem_singleton.mp ha
      refine Acc.intro _ fun b ⟨g', hg', hid, hb⟩ => ?_
      obtain rfl := hc.eq_of_id_eq hg' hg hid
      obtain ⟨a', ha', rfl⟩ := List.mem_map.mp (hin b hb)
      exact ih a' ha'

theorem acyclic (h : c.Scheduled done) (hc : c.WellFormed)
    (hall : ∀ id ∈ c.ids, id ∈ done.map (·.id)) : c.Acyclic := by
  intro id hloop
  have hid : id ∈ c.ids := by
    obtain ⟨b, ⟨g, hg, rfl, -⟩, -⟩ := Relation.TransGen.head'_iff.mp hloop
    exact mem_ids_of_mem hg
  obtain ⟨g, hg, rfl⟩ := List.mem_map.mp (hall id hid)
  have hacc := (h.acc hc g hg).transGen
  have hswap := Relation.transGen_swap.mpr hloop
  exact absurd (Acc.rank_lt_of_rel hacc hswap) (lt_irrefl _)

end Scheduled

end LogicCircuit.Circuit
