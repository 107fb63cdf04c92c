import LogicCircuit.Proofs.Circuit.WellFormed

/-!
# Levels of gates

The level of a gate is the number of the step that reaches it. Gates without inputs have level
zero; a gate with a connected input has the level after the greatest one of its connected inputs,
if all of these have a level. Gates on a loop or behind one have none, and neither have gates
behind a gate with inputs of which none is connected.

Results:
* `HasLevel.unique`: a gate has at most one level.
* `hasLevel_succ_iff`: which gates have the level after the levels that are reached.
* `HasLevel.exists_of_le`, `HasLevel.lt_length`: no level is skipped, so levels are below the number
  of gates.
-/

namespace LogicCircuit.Circuit

/-- The gate has the level. -/
inductive HasLevel (c : Circuit) : GateId → Nat → Prop
  | source {g : Gate} (hg : g ∈ c.gates) (h : g.kind.arity = 0) : HasLevel c g.id 0
  | behind {g : Gate} (hg : g ∈ c.gates) (hne : g.inputs ≠ []) (level : GateId → Nat)
      (h : ∀ d ∈ g.inputs, HasLevel c d (level d)) :
      HasLevel c g.id (1 + g.inputs.toFinset.sup level)

/-- The gate has a level up to the given one. -/
def ReachedBy (c : Circuit) (n : Nat) (id : GateId) : Prop := ∃ m ≤ n, c.HasLevel id m

theorem WellFormed.inputs_eq_nil {c : Circuit} (hc : c.WellFormed) {g : Gate} (hg : g ∈ c.gates)
    (h : g.kind.arity = 0) : g.inputs = [] := by
  have hslots : g.slots = [] := List.length_eq_zero_iff.mp ((hc.arity g hg).trans h)
  rw [Gate.inputs, hslots]
  rfl

namespace HasLevel

variable {c : Circuit} {id : GateId} {n m : Nat}

theorem mem_ids (h : c.HasLevel id n) : id ∈ c.ids := by
  cases h with
  | source hg _ => exact mem_ids_of_mem hg
  | behind hg _ _ _ => exact mem_ids_of_mem hg

/-- How a gate comes by its level. -/
theorem cases_of_mem (h : c.HasLevel id n) (hc : c.WellFormed) {g : Gate} (hg : g ∈ c.gates)
    (hid : g.id = id) :
    (g.kind.arity = 0 ∧ n = 0) ∨ (g.inputs ≠ [] ∧ ∃ level : GateId → Nat,
      (∀ d ∈ g.inputs, c.HasLevel d (level d)) ∧ n = 1 + g.inputs.toFinset.sup level) := by
  cases h with
  | source hg' h0 =>
    obtain rfl := hc.eq_of_id_eq hg hg' hid
    exact .inl ⟨h0, rfl⟩
  | behind hg' hne level h =>
    obtain rfl := hc.eq_of_id_eq hg hg' hid
    exact .inr ⟨hne, level, h, rfl⟩

/-- A gate has at most one level. -/
theorem unique (h : c.HasLevel id n) (hc : c.WellFormed) (h' : c.HasLevel id m) : n = m := by
  induction h generalizing m with
  | source hg h0 =>
    rcases h'.cases_of_mem hc hg rfl with ⟨-, rfl⟩ | ⟨hne, -⟩
    · rfl
    · exact absurd (hc.inputs_eq_nil hg h0) hne
  | @behind g hg hne level _ ih =>
    rcases h'.cases_of_mem hc hg rfl with ⟨h0, -⟩ | ⟨-, level', hlevel', rfl⟩
    · exact absurd (hc.inputs_eq_nil hg h0) hne
    · have hlevel : ∀ d ∈ g.inputs.toFinset, level d = level' d := fun d hd =>
        ih d (List.mem_toFinset.mp hd) (hlevel' d (List.mem_toFinset.mp hd))
      rw [Finset.sup_congr rfl hlevel]

end HasLevel

section Steps

variable {c : Circuit} (hc : c.WellFormed) {g : Gate} (hg : g ∈ c.gates) {n : Nat}
include hc hg

theorem hasLevel_zero_iff : c.HasLevel g.id 0 ↔ g.kind.arity = 0 := by
  constructor
  · intro h
    rcases h.cases_of_mem hc hg rfl with ⟨h0, -⟩ | ⟨-, level, -, h0⟩
    · exact h0
    · omega
  · exact .source hg

theorem reachedBy_zero_iff : c.ReachedBy 0 g.id ↔ g.kind.arity = 0 := by
  rw [← hasLevel_zero_iff hc hg]
  constructor
  · rintro ⟨m, hm, h⟩
    exact Nat.le_zero.mp hm ▸ h
  · exact fun h => ⟨0, le_rfl, h⟩

theorem inputs_reachedBy (h : c.HasLevel g.id (n + 1)) :
    g.inputs ≠ [] ∧ ∀ d ∈ g.inputs, c.ReachedBy n d := by
  rcases h.cases_of_mem hc hg rfl with ⟨-, h0⟩ | ⟨hne, level, h, hn⟩
  · omega
  · refine ⟨hne, fun d hd => ⟨level d, ?_, h d hd⟩⟩
    have hle : level d ≤ g.inputs.toFinset.sup level := Finset.le_sup (List.mem_toFinset.mpr hd)
    omega

/-- The next step reaches the gates that have inputs all of which are reached. -/
theorem hasLevel_succ_iff (hnew : ¬ c.ReachedBy n g.id) :
    c.HasLevel g.id (n + 1) ↔ g.inputs ≠ [] ∧ ∀ d ∈ g.inputs, c.ReachedBy n d := by
  refine ⟨inputs_reachedBy hc hg, fun ⟨hne, h⟩ => ?_⟩
  choose! level hle hlevel using h
  have hg' := HasLevel.behind hg hne level hlevel
  have hsup : g.inputs.toFinset.sup level ≤ n :=
    Finset.sup_le fun d hd => hle d (List.mem_toFinset.mp hd)
  -- An earlier level would have been reached.
  have hlt : ¬ 1 + g.inputs.toFinset.sup level ≤ n := fun hle => hnew ⟨_, hle, hg'⟩
  rwa [show n + 1 = 1 + g.inputs.toFinset.sup level by omega]

end Steps

theorem reachedBy_succ_iff {c : Circuit} {n : Nat} {id : GateId} :
    c.ReachedBy (n + 1) id ↔ c.ReachedBy n id ∨ c.HasLevel id (n + 1) := by
  constructor
  · rintro ⟨m, hm, h⟩
    rcases Nat.le_succ_iff.mp hm with hm | rfl
    · exact .inl ⟨m, hm, h⟩
    · exact .inr h
  · rintro (⟨m, hm, h⟩ | h)
    · exact ⟨m, hm.trans n.le_succ, h⟩
    · exact ⟨n + 1, le_rfl, h⟩

namespace HasLevel

variable {c : Circuit} {id : GateId} {n m : Nat}

/-- Some input of a gate has the level before. -/
theorem exists_pred (h : c.HasLevel id (n + 1)) (hc : c.WellFormed) :
    ∃ d, c.HasLevel d n := by
  obtain ⟨g, hg, rfl⟩ := Circuit.mem_ids.mp h.mem_ids
  rcases h.cases_of_mem hc hg rfl with ⟨-, h0⟩ | ⟨hne, level, hlevel, hn⟩
  · omega
  · have hnonempty : g.inputs.toFinset.Nonempty := List.toFinset_nonempty_iff _ |>.mpr hne
    obtain ⟨d, hd, hsup⟩ := Finset.exists_mem_eq_sup _ hnonempty level
    refine ⟨d, ?_⟩
    rw [show n = level d by omega]
    exact hlevel d (List.mem_toFinset.mp hd)

/-- No level is skipped. -/
theorem exists_of_le (h : c.HasLevel id n) (hc : c.WellFormed) (hm : m ≤ n) :
    ∃ d, c.HasLevel d m := by
  induction n generalizing id with
  | zero => exact ⟨id, Nat.le_zero.mp hm ▸ h⟩
  | succ n ih =>
    rcases Nat.le_succ_iff.mp hm with hm | rfl
    · obtain ⟨d, hd⟩ := h.exists_pred hc
      exact ih hd hm
    · exact ⟨id, h⟩

/-- There are more gates than the level of any of them: each level up to it has a gate. -/
theorem lt_length (h : c.HasLevel id n) (hc : c.WellFormed) : n < c.gates.length := by
  have hall : ∀ m, m ≤ n → ∃ d, c.HasLevel d m := fun m => h.exists_of_le hc
  choose! gate hgate using hall
  have hle : ∀ m ∈ Finset.range (n + 1), m ≤ n := fun m hm =>
    Nat.lt_succ_iff.mp (Finset.mem_range.mp hm)
  have hcard := Finset.card_le_card_of_injOn (s := Finset.range (n + 1)) (t := c.ids.toFinset) gate
    (fun m hm => List.mem_toFinset.mpr (hgate m (hle m hm)).mem_ids) fun m hm k hk he =>
      (hgate m (hle m hm)).unique hc (he ▸ hgate k (hle k hk))
  have hids : c.ids.toFinset.card ≤ c.gates.length :=
    (List.toFinset_card_le c.ids).trans_eq (List.length_map _)
  rw [Finset.card_range] at hcard
  omega

end HasLevel

/-! ## What levels depend on -/

section Frames

variable {c d : Circuit} (h : d.gates.map Gate.frame = c.gates.map Gate.frame)
include h

theorem hasLevel_of_frames {id : GateId} {n : Nat} (hd : d.HasLevel id n) : c.HasLevel id n := by
  induction hd with
  | @source g hg h0 =>
    obtain ⟨g', hg', hid, hk, -⟩ := exists_gate_of_frames h hg
    rw [← hid]
    exact .source hg' (hk ▸ h0)
  | @behind g hg hne level _ ih =>
    obtain ⟨g', hg', hid, -, hs⟩ := exists_gate_of_frames h hg
    have hinputs : g'.inputs = g.inputs := by rw [Gate.inputs, Gate.inputs, hs]
    rw [← hid, ← hinputs]
    exact .behind hg' (hinputs ▸ hne) level (hinputs ▸ ih)

theorem hasLevel_iff_of_frames {id : GateId} {n : Nat} : d.HasLevel id n ↔ c.HasLevel id n :=
  ⟨hasLevel_of_frames h, hasLevel_of_frames h.symm⟩

theorem reachedBy_iff_of_frames {id : GateId} {n : Nat} : d.ReachedBy n id ↔ c.ReachedBy n id :=
  exists_congr fun _ => and_congr_right fun _ => hasLevel_iff_of_frames h

end Frames

end LogicCircuit.Circuit
