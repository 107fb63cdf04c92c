import Mathlib
import LogicCircuit.Circuit.Consistency
import LogicCircuit.Circuit.Edit

/-!
# Well-formed circuits

The gates and the wires of a circuit store its connections twice: a slot holds the gate that
drives it, and a wire names the gate and the slot that it enters. `Circuit.WellFormed` says that
the two agree, and that identifiers ascend below the next one.

Results:
* `WellFormed.wires_perm`: the wires are exactly the filled slots, each once.
* `WellFormed.isConsistent`: a well-formed circuit passes the consistency check.
* `WellFormed.of_skeleton_eq`: whether a circuit is well formed depends on nothing but the
  identifiers, kinds and slots of its gates, the ends of its wires and the next identifier.
-/

namespace LogicCircuit

/-! ## Slots -/

namespace Gate

theorem driver?_eq_some {g : Gate} {slot : Nat} {id : GateId} :
    g.driver? slot = some id ↔ g.slots[slot]? = some (some id) := by
  unfold driver?
  cases g.slots[slot]? with
  | none => simp
  | some s => cases s <;> simp

/-- Gates with as many slots have the same ones if the same gates drive them. -/
theorem slots_eq_of_driver? {g h : Gate} (hl : g.slots.length = h.slots.length)
    (hd : ∀ slot source, g.driver? slot = some source ↔ h.driver? slot = some source) :
    g.slots = h.slots := by
  refine List.ext_getElem hl fun i hg hh => Option.ext fun source => ?_
  have hi := hd i source
  simpa only [driver?_eq_some, List.getElem?_eq_getElem hg, List.getElem?_eq_getElem hh,
    Option.some.injEq] using hi

theorem mem_inputs {g : Gate} {id : GateId} : id ∈ g.inputs ↔ ∃ slot, g.driver? slot = some id := by
  simp only [inputs, driver?_eq_some, List.mem_filterMap, exists_eq_right]
  rw [List.mem_iff_getElem?]

theorem driver?_lt {g : Gate} {slot : Nat} {id : GateId} (h : g.driver? slot = some id) :
    slot < g.slots.length := by
  rw [driver?_eq_some] at h
  exact (List.getElem?_eq_some_iff.mp h).1

@[simp] theorem driver?_fresh (id : GateId) (kind : GateKind) (position : Position) (slot : Nat) :
    (fresh id kind position).driver? slot = none := by
  unfold driver? fresh
  rw [List.getElem?_replicate]
  split_ifs <;> rfl

theorem driver?_set (g : Gate) (slot : Nat) (driver : Option GateId) (h : slot < g.slots.length)
    (i : Nat) :
    ({ g with slots := g.slots.set slot driver } : Gate).driver? i =
      if i = slot then driver else g.driver? i := by
  unfold driver?
  simp only [List.getElem?_set]
  by_cases hi : i = slot
  · subst hi; simp [h]
  · simp [hi, Ne.symm hi]

theorem driver?_forget (g : Gate) (id : GateId) (slot : Nat) (d : GateId) :
    (g.forget id).driver? slot = some d ↔ g.driver? slot = some d ∧ d ≠ id := by
  simp only [driver?_eq_some, forget, List.getElem?_map, Option.map_eq_some_iff]
  constructor
  · rintro ⟨s, hs, hd⟩
    split_ifs at hd with h
    subst hd
    exact ⟨hs, fun he => h (by rw [he])⟩
  · rintro ⟨hs, hd⟩
    exact ⟨some d, hs, by simp [hd]⟩

/-- What fills the slots of a gate: for each connected input its driver, the gate and the slot. -/
def connections (g : Gate) : List (GateId × GateId × Nat) :=
  g.slots.zipIdx.filterMap fun p => p.1.map (·, g.id, p.2)

theorem mem_connections {g : Gate} {source target : GateId} {slot : Nat} :
    (source, target, slot) ∈ g.connections ↔ g.id = target ∧ g.driver? slot = some source := by
  simp only [connections, List.mem_filterMap, Option.map_eq_some_iff, Prod.mk.injEq,
    driver?_eq_some]
  constructor
  · rintro ⟨⟨s, i⟩, hp, d, hs, rfl, ht, rfl⟩
    simp only at hs ht
    exact ⟨ht, hs ▸ List.mem_zipIdx_iff_getElem?.mp hp⟩
  · rintro ⟨ht, hs⟩
    exact ⟨(some source, slot), List.mem_zipIdx_iff_getElem?.mpr hs, source, rfl, rfl, ht, rfl⟩

theorem map_fst_connections (g : Gate) : g.connections.map (·.1) = g.inputs := by
  unfold connections inputs
  rw [List.map_filterMap]
  conv_rhs => rw [← List.zipIdx_map_fst 0 g.slots, List.filterMap_map]
  congr 1
  funext p
  obtain ⟨s, i⟩ := p
  cases s <;> rfl

theorem length_connections (g : Gate) : g.connections.length = g.inputs.length := by
  rw [← g.map_fst_connections, List.length_map]

theorem nodup_connections (g : Gate) : g.connections.Nodup := by
  have h : (g.connections.map (·.2.2)).Nodup := by
    have hsub : List.Sublist (g.connections.map (·.2.2)) (g.slots.zipIdx.map (·.2)) := by
      unfold connections
      generalize g.slots.zipIdx = l
      induction l with
      | nil => simp
      | cons p l ih =>
        obtain ⟨s, i⟩ := p
        cases s with
        | none => exact ih.cons _
        | some d => exact ih.cons_cons _
    refine hsub.nodup ?_
    rw [List.zipIdx_map_snd]
    exact List.nodup_range'
  exact List.Nodup.of_map _ h

end Gate

/-- The two ends of a wire: the gate it leaves, and the gate and the slot it enters. -/
def Wire.ends (w : Wire) : GateId × GateId × Nat := (w.source, w.target, w.slot)

/-- What the consistency of a circuit is about in a gate. -/
def Gate.frame (g : Gate) : GateId × GateKind × List (Option GateId) := (g.id, g.kind, g.slots)

namespace Circuit

/-! ## The invariant -/

/-- The representation of a circuit is well formed. -/
structure WellFormed (c : Circuit) : Prop where
  /-- The identifiers of the gates ascend strictly. -/
  ascending : c.ids.Pairwise (· < ·)
  below : ∀ g ∈ c.gates, g.id < c.nextId
  bounded : c.nextId ≤ idBound
  /-- A gate has one slot per input. -/
  arity : ∀ g ∈ c.gates, g.slots.length = g.kind.arity
  /-- No letter is a lowercase ASCII letter. -/
  normalized : ∀ g ∈ c.gates, g.kind.normalized = g.kind
  /-- No two wires enter the same slot. -/
  single : (c.wires.map fun w => (w.target, w.slot)).Nodup
  /-- There is a wire into a slot exactly when the slot is filled, and it comes from the gate that
  fills the slot. -/
  wired : ∀ source target slot, (source, target, slot) ∈ c.wires.map Wire.ends ↔
    ∃ g ∈ c.gates, g.id = target ∧ g.driver? slot = some source
  /-- A wire leaves a gate of the circuit. -/
  sourced : ∀ w ∈ c.wires, w.source ∈ c.ids
  /-- A wire joins two different gates. -/
  proper : ∀ w ∈ c.wires, w.source ≠ w.target

/-- What fills the slots of the gates. -/
def connections (c : Circuit) : List (GateId × GateId × Nat) := c.gates.flatMap Gate.connections

theorem mem_connections {c : Circuit} {source target : GateId} {slot : Nat} :
    (source, target, slot) ∈ c.connections ↔
      ∃ g ∈ c.gates, g.id = target ∧ g.driver? slot = some source := by
  simp only [connections, List.mem_flatMap, Gate.mem_connections]

/-! ## Finding gates -/

theorem mem_ids {c : Circuit} {id : GateId} : id ∈ c.ids ↔ ∃ g ∈ c.gates, g.id = id := by
  simp [ids]

theorem mem_ids_of_mem {c : Circuit} {g : Gate} (h : g ∈ c.gates) : g.id ∈ c.ids :=
  mem_ids.mpr ⟨g, h, rfl⟩

theorem gate?_eq_none {c : Circuit} {id : GateId} : c.gate? id = none ↔ id ∉ c.ids := by
  simp [gate?, ids]

theorem mem_of_gate? {c : Circuit} {id : GateId} {g : Gate} (h : c.gate? id = some g) :
    g ∈ c.gates ∧ g.id = id := by
  refine ⟨List.mem_of_find?_eq_some h, ?_⟩
  simpa using List.find?_some h

theorem mem_sinks {c : Circuit} {id : GateId} :
    id ∈ c.sinks ↔ id ∈ c.ids ∧ ∀ w ∈ c.wires, w.source ≠ id := by
  simp [sinks, drives]

namespace WellFormed

variable {c : Circuit}

theorem ascending_sinks (hc : c.WellFormed) : c.sinks.Pairwise (· < ·) :=
  hc.ascending.sublist List.filter_sublist

theorem lt_nextId (hc : c.WellFormed) {id : GateId} (h : id ∈ c.ids) : id < c.nextId := by
  obtain ⟨g, hg, rfl⟩ := mem_ids.mp h
  exact hc.below g hg

theorem nodup_ids (hc : c.WellFormed) : c.ids.Nodup := hc.ascending.imp fun h => h.ne

/-- A gate is determined by its identifier. -/
theorem eq_of_id_eq (hc : c.WellFormed) {g h : Gate} (hg : g ∈ c.gates) (hh : h ∈ c.gates)
    (he : g.id = h.id) : g = h :=
  List.inj_on_of_nodup_map hc.nodup_ids hg hh he

theorem gate?_eq_some (hc : c.WellFormed) {id : GateId} {g : Gate} :
    c.gate? id = some g ↔ g ∈ c.gates ∧ g.id = id := by
  refine ⟨mem_of_gate?, fun ⟨hg, hid⟩ => ?_⟩
  cases hf : c.gate? id with
  | none => exact absurd (mem_ids.mpr ⟨g, hg, hid⟩) (gate?_eq_none.mp hf)
  | some h =>
    obtain ⟨hh, hhid⟩ := mem_of_gate? hf
    rw [hc.eq_of_id_eq hh hg (by rw [hhid, hid])]

theorem target_mem (hc : c.WellFormed) {w : Wire} (hw : w ∈ c.wires) : w.target ∈ c.ids := by
  obtain ⟨g, hg, hid, -⟩ := (hc.wired _ _ _).mp (List.mem_map_of_mem (f := Wire.ends) hw)
  exact mem_ids.mpr ⟨g, hg, hid⟩

theorem driver?_eq_some_iff (hc : c.WellFormed) {g : Gate} (hg : g ∈ c.gates) {slot : Nat}
    {source : GateId} :
    g.driver? slot = some source ↔ (source, g.id, slot) ∈ c.wires.map Wire.ends := by
  rw [hc.wired]
  constructor
  · exact fun h => ⟨g, hg, rfl, h⟩
  · rintro ⟨g', hg', hid, h⟩
    exact hc.eq_of_id_eq hg' hg hid ▸ h

/-- What fills a slot is a gate of the circuit, and another one than that of the slot. -/
theorem driver_mem (hc : c.WellFormed) {g : Gate} (hg : g ∈ c.gates) {slot : Nat} {id : GateId}
    (h : g.driver? slot = some id) : id ∈ c.ids ∧ id ≠ g.id := by
  have hmem := (hc.wired id g.id slot).mpr ⟨g, hg, rfl, h⟩
  obtain ⟨w, hw, he⟩ := List.mem_map.mp hmem
  simp only [Wire.ends, Prod.mk.injEq] at he
  obtain ⟨rfl, ht, -⟩ := he
  exact ⟨hc.sourced w hw, ht ▸ hc.proper w hw⟩

theorem input_mem (hc : c.WellFormed) {g : Gate} (hg : g ∈ c.gates) {id : GateId}
    (h : id ∈ g.inputs) : id ∈ c.ids := by
  obtain ⟨slot, hs⟩ := Gate.mem_inputs.mp h
  exact (hc.driver_mem hg hs).1

/-! ## Wires and filled slots -/

theorem nodup_ends (hc : c.WellFormed) : (c.wires.map Wire.ends).Nodup := by
  refine List.Nodup.of_map (fun e : GateId × GateId × Nat => e.2) ?_
  rw [List.map_map]
  exact hc.single

theorem nodup_connections (hc : c.WellFormed) : c.connections.Nodup := by
  unfold connections
  rw [List.nodup_flatMap]
  refine ⟨fun g _ => g.nodup_connections, ?_⟩
  refine (List.pairwise_map.mp hc.ascending).imp ?_
  rintro g h hlt ⟨source, target, slot⟩ hg hh
  rw [Gate.mem_connections] at hg hh
  exact absurd (hg.1.trans hh.1.symm) hlt.ne

/-- The wires are exactly the filled slots, each once. -/
theorem wires_perm (hc : c.WellFormed) : (c.wires.map Wire.ends).Perm c.connections := by
  rw [List.perm_ext_iff_of_nodup hc.nodup_ends hc.nodup_connections]
  rintro ⟨source, target, slot⟩
  rw [hc.wired, mem_connections]

/-- The gates that a wire leaves are the inputs of the gates. -/
theorem drives_eq (hc : c.WellFormed) (id : GateId) :
    c.drives id = c.gates.any (·.inputs.contains id) := by
  rw [Bool.eq_iff_iff]
  simp only [drives, List.any_eq_true, beq_iff_eq, List.contains_iff_mem, Gate.mem_inputs]
  constructor
  · rintro ⟨w, hw, rfl⟩
    obtain ⟨g, hg, -, hd⟩ := (hc.wired _ _ _).mp (List.mem_map_of_mem (f := Wire.ends) hw)
    exact ⟨g, hg, w.slot, hd⟩
  · rintro ⟨g, hg, slot, hd⟩
    obtain ⟨w, hw, he⟩ := List.mem_map.mp ((hc.wired id g.id slot).mpr ⟨g, hg, rfl, hd⟩)
    exact ⟨w, hw, congrArg (·.1) he⟩

theorem length_wires (hc : c.WellFormed) :
    c.wires.length = (c.gates.flatMap (·.inputs)).length := by
  have h := hc.wires_perm.length_eq
  rw [List.length_map, connections, List.length_flatMap] at h
  rw [h, List.length_flatMap]
  simp only [Gate.length_connections]

end WellFormed

/-! ## The consistency check -/

theorem isAscending_iff {l : List Nat} : isAscending l = true ↔ l.Pairwise (· < ·) := by
  rw [← List.isChain_iff_pairwise]
  induction l using isAscending.induct with
  | case1 a b rest ih =>
    rw [isAscending, Bool.and_eq_true, decide_eq_true_eq, ih, List.isChain_cons_cons]
  | case2 l h =>
    match l, h with
    | [], _ => simp [isAscending]
    | [a], _ => simp [isAscending]
    | a :: b :: rest, h => exact absurd rfl (h a b rest)

theorem WellFormed.holds {c : Circuit} (hc : c.WellFormed) {w : Wire} (hw : w ∈ c.wires) :
    c.holds w = true := by
  obtain ⟨g, hg, hid, hd⟩ := (hc.wired _ _ _).mp (List.mem_map_of_mem (f := Wire.ends) hw)
  unfold Circuit.holds
  rw [hc.gate?_eq_some.mpr ⟨hg, hid⟩]
  simp [hd]

theorem WellFormed.isConsistent {c : Circuit} (hc : c.WellFormed) : c.isConsistent = true := by
  unfold Circuit.isConsistent
  simp only [Bool.and_eq_true, List.all_eq_true, beq_iff_eq, decide_eq_true_eq]
  refine ⟨⟨⟨isAscending_iff.mpr hc.ascending, ?_⟩, ?_⟩, hc.length_wires.symm⟩
  · intro g hg
    exact ⟨hc.arity g hg, hc.below g hg⟩
  · intro w hw
    exact ⟨contains_iff.mpr (hc.sourced w hw), hc.holds hw⟩

/-! ## What the invariant depends on -/

/-- What is left of a circuit without values, marks of activity and positions. -/
def skeleton (c : Circuit) :
    List (GateId × GateKind × List (Option GateId)) × List (GateId × GateId × Nat) × GateId :=
  (c.gates.map Gate.frame, c.wires.map Wire.ends, c.nextId)

theorem ids_of_frames {c d : Circuit} (h : d.gates.map Gate.frame = c.gates.map Gate.frame) :
    d.ids = c.ids := by
  have hid := congrArg (List.map (·.1)) h
  rw [List.map_map, List.map_map] at hid
  exact hid

/-- A gate of one circuit stands, with its kind and slots, in every circuit of the same frames. -/
theorem exists_gate_of_frames {c d : Circuit}
    (h : d.gates.map Gate.frame = c.gates.map Gate.frame) {g : Gate} (hg : g ∈ d.gates) :
    ∃ g' ∈ c.gates, g'.id = g.id ∧ g'.kind = g.kind ∧ g'.slots = g.slots := by
  have hmem : g.frame ∈ c.gates.map Gate.frame := h ▸ List.mem_map_of_mem hg
  obtain ⟨g', hg', hf⟩ := List.mem_map.mp hmem
  simp only [Gate.frame, Prod.mk.injEq] at hf
  exact ⟨g', hg', hf⟩

theorem exists_driver_of_frames {c d : Circuit}
    (h : d.gates.map Gate.frame = c.gates.map Gate.frame) {source target : GateId} {slot : Nat}
    (hd : ∃ g ∈ d.gates, g.id = target ∧ g.driver? slot = some source) :
    ∃ g ∈ c.gates, g.id = target ∧ g.driver? slot = some source := by
  obtain ⟨g, hg, hid, hdr⟩ := hd
  obtain ⟨g', hg', hid', -, hs⟩ := exists_gate_of_frames h hg
  refine ⟨g', hg', hid'.trans hid, ?_⟩
  rw [Gate.driver?_eq_some] at hdr ⊢
  rw [hs, hdr]

theorem WellFormed.of_skeleton_eq {c d : Circuit} (hc : c.WellFormed)
    (h : d.skeleton = c.skeleton) : d.WellFormed := by
  simp only [skeleton, Prod.mk.injEq] at h
  obtain ⟨hg, hw, hn⟩ := h
  have hwire : ∀ w ∈ d.wires, ∃ w' ∈ c.wires, w'.ends = w.ends := fun w hmem =>
    List.mem_map.mp (hw ▸ List.mem_map_of_mem (f := Wire.ends) hmem)
  refine ⟨?_, ?_, hn ▸ hc.bounded, ?_, ?_, ?_, ?_, ?_, ?_⟩
  · rw [ids_of_frames hg]
    exact hc.ascending
  · intro g hmem
    obtain ⟨g', hg', hid, -, -⟩ := exists_gate_of_frames hg hmem
    rw [hn, ← hid]
    exact hc.below g' hg'
  · intro g hmem
    obtain ⟨g', hg', -, hk, hs⟩ := exists_gate_of_frames hg hmem
    rw [← hk, ← hs]
    exact hc.arity g' hg'
  · intro g hmem
    obtain ⟨g', hg', -, hk, -⟩ := exists_gate_of_frames hg hmem
    rw [← hk]
    exact hc.normalized g' hg'
  · have he : ∀ ws : List Wire,
        ws.map (fun w => (w.target, w.slot)) = (ws.map Wire.ends).map (·.2) := by
      intro ws
      rw [List.map_map]
      rfl
    rw [he, hw, ← he]
    exact hc.single
  · intro source target slot
    rw [hw, hc.wired]
    exact ⟨exists_driver_of_frames hg.symm, exists_driver_of_frames hg⟩
  · intro w hmem
    obtain ⟨w', hw', he⟩ := hwire w hmem
    simp only [Wire.ends, Prod.mk.injEq] at he
    rw [ids_of_frames hg, ← he.1]
    exact hc.sourced w' hw'
  · intro w hmem
    obtain ⟨w', hw', he⟩ := hwire w hmem
    simp only [Wire.ends, Prod.mk.injEq] at he
    rw [← he.1, ← he.2.1]
    exact hc.proper w' hw'

end Circuit

end LogicCircuit
