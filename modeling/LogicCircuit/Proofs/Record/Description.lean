import LogicCircuit.Proofs.Circuit.Sorting
import LogicCircuit.Proofs.Record.Construction

/-!
# The circuit that a record describes

A record describes a circuit if the gates are those of the record, with the slots that it declares
for them, and the wires are those that it lists. It describes one exactly if its parts agree with
each other, `CircuitRecord.Coherent`; then it describes no other one, and only a loop keeps the
circuit from being made.

Results:
* `Describes.mem_gates`, `Describes.coherent`: what a record says of the circuit it describes.
* `Describes.unique`: a record describes at most one circuit, whatever the order of its gates.
* `Coherent.exists_described`: a record whose parts agree describes a circuit.
* `Describes.circuit_of_acyclic`, `Describes.circuit_of_looped`: the circuit of a record.
-/

namespace LogicCircuit

namespace Circuit

/-! ## Comparing the slots -/

/-- The slots that a record declares pass the comparison if the gate has them. -/
theorem check_eq_ok_iff {c : Circuit} (hc : c.WellFormed) {r : GateRecord} :
    r.check c = .ok () ↔ (c.gate? r.id).map (·.slots) = some r.slots := by
  unfold GateRecord.check
  constructor
  · intro h
    split at h
    · cases h
    · split_ifs at h with hs
      exact hs
  · intro hs
    obtain ⟨g, hg, hslots⟩ := Option.map_eq_some_iff.mp hs
    have hknown : (r.slots.filterMap fun s => s).find? (!c.contains ·) = none := by
      rw [List.find?_eq_none, ← hslots]
      intro d hd
      simpa using contains_iff.mpr (hc.input_mem (mem_of_gate? hg).1 hd)
    rw [hknown]
    exact if_pos hs

end Circuit

/-! ## The gate that a record declares -/

theorem Gate.eq_of_bare {g h : Gate} (hb : g.bare = h.bare) (hs : g.slots = h.slots) : g = h := by
  obtain ⟨id, kind, slots, value, active, position⟩ := g
  obtain ⟨id', kind', slots', value', active', position'⟩ := h
  simp only [bare, Gate.mk.injEq] at hb hs ⊢
  tauto

namespace GateRecord

variable {x : GateRecord} {g : Gate}

theorem gate?_eq_some (h : x.gate? = some g) :
    GateKind.ofText? x.kind = some g.kind ∧ g.id = x.id ∧ g.slots = x.slots ∧
      g.active = false := by
  obtain ⟨kind, hk, rfl⟩ := Option.map_eq_some_iff.mp h
  exact ⟨hk, rfl, rfl, rfl⟩

/-- A gate that is the declared one up to its slots. -/
theorem of_bare {g' : Gate} (h : x.gate? = some g') (hb : g.bare = g'.bare) :
    GateKind.ofText? x.kind = some g.kind ∧ g.id = x.id := by
  obtain ⟨hk, hid, -, -⟩ := gate?_eq_some h
  rw [Gate.kind_eq_of_bare hb, Gate.id_eq_of_bare hb]
  exact ⟨hk, hid⟩

end GateRecord

theorem WireRecord.mem_map_ends {ws : List WireRecord} {source target : GateId} {slot : Nat} :
    (source, target, slot) ∈ (ws.map wire).map Wire.ends ↔ ⟨source, target, slot⟩ ∈ ws := by
  rw [List.map_map, List.mem_map]
  constructor
  · rintro ⟨w, hw, he⟩
    simp only [Function.comp_apply, Wire.ends, wire, Prod.mk.injEq] at he
    obtain ⟨rfl, rfl, rfl⟩ := he
    exact hw
  · exact fun hw => ⟨_, hw, rfl⟩

/-! ## Descriptions -/

/-- The record describes the circuit: the gates are those of the record, with the slots that it
declares, and the wires are those that it lists. -/
structure CircuitRecord.Describes (r : CircuitRecord) (c : Circuit) : Prop where
  wellFormed : c.WellFormed
  declared : Circuit.Declared r.gates c.gates
  slots : ∀ x ∈ r.gates, (c.gate? x.id).map (·.slots) = some x.slots
  wires : c.wires = r.wires.map WireRecord.wire
  nextId : ∀ n, c.nextId ≤ n ↔ ∀ id ∈ c.ids, id < n

/-- The record declares that the second gate fills a slot of the first one. -/
def CircuitRecord.DependsOn (r : CircuitRecord) (a b : GateId) : Prop :=
  ∃ g ∈ r.gates, g.id = a ∧ some b ∈ g.slots

/-- The parts of the record agree with each other. -/
structure CircuitRecord.Coherent (r : CircuitRecord) : Prop where
  /-- Each gate is of a kind that has a name, and declares one slot per input. -/
  kinds : ∀ g ∈ r.gates, ∃ kind, GateKind.ofText? g.kind = some kind ∧ g.slots.length = kind.arity
  distinct : (r.gates.map (·.id)).Nodup
  /-- The greatest number of 32 bits is no identifier. -/
  bound : ∀ g ∈ r.gates, g.id < 4294967295
  /-- Each wire leads from a gate to a slot of another gate. -/
  ends : ∀ w ∈ r.wires, w.source ∈ r.gates.map (·.id) ∧ w.source ≠ w.target ∧
    ∃ g ∈ r.gates, g.id = w.target ∧
      ∃ kind, GateKind.ofText? g.kind = some kind ∧ w.slot < kind.arity
  /-- No two wires enter the same slot. -/
  single : (r.wires.map fun w => (w.target, w.slot)).Nodup
  /-- A gate declares that a slot is filled exactly if there is such a wire. -/
  filled : ∀ g ∈ r.gates, ∀ slot < g.slots.length, ∀ source : GateId,
    g.slots[slot]? = some (some source) ↔ ⟨source, g.id, slot⟩ ∈ r.wires
  /-- A gate declares that a slot is empty exactly if no wire enters it. -/
  empty : ∀ g ∈ r.gates, ∀ slot < g.slots.length,
    g.slots[slot]? = some none ↔ ∀ w ∈ r.wires, ¬ (w.target = g.id ∧ w.slot = slot)

namespace CircuitRecord

variable {r : CircuitRecord} {c d : Circuit}

namespace Describes

/-- The gates are exactly those that the record declares. -/
theorem mem_gates (h : r.Describes c) {g : Gate} :
    g ∈ c.gates ↔ ∃ x ∈ r.gates, x.gate? = some g := by
  -- The gate of the circuit that is the declared one up to its slots is the declared one.
  have hsame : ∀ x ∈ r.gates, ∀ (g g' : Gate), g ∈ c.gates → x.gate? = some g' →
      g.bare = g'.bare → g = g' := by
    intro x hx g g' hg hg' hb
    have hslots := h.slots x hx
    rw [h.wellFormed.gate?_eq_some.mpr ⟨hg, (GateRecord.of_bare hg' hb).2⟩] at hslots
    have hs := (GateRecord.gate?_eq_some hg').2.2.1
    exact Gate.eq_of_bare hb ((Option.some.inj hslots).trans hs.symm)
  constructor
  · intro hg
    obtain ⟨x, hx, g', hg', hb⟩ := h.declared.exists_record hg
    exact ⟨x, hx, hsame x hx g g' hg hg' hb ▸ hg'⟩
  · rintro ⟨x, hx, hg⟩
    obtain ⟨g', hmem, g'', hg'', hb⟩ := h.declared.exists_gate hx
    obtain rfl := Option.some.inj (hg.symm.trans hg'')
    exact hsame x hx g' g hmem hg hb ▸ hmem

theorem exists_gate (h : r.Describes c) {x : GateRecord} (hx : x ∈ r.gates) :
    ∃ g ∈ c.gates, x.gate? = some g := by
  obtain ⟨-, -, g, hg, -⟩ := h.declared.exists_gate hx
  exact ⟨g, h.mem_gates.mpr ⟨x, hx, hg⟩, hg⟩

theorem dependsOn_iff (h : r.Describes c) {a b : GateId} : c.DependsOn a b ↔ r.DependsOn a b := by
  constructor
  · rintro ⟨g, hg, rfl, hb⟩
    obtain ⟨x, hx, hgate⟩ := h.mem_gates.mp hg
    obtain ⟨-, hid, hs, -⟩ := GateRecord.gate?_eq_some hgate
    exact ⟨x, hx, hid.symm, hs ▸ by simpa [Gate.inputs] using hb⟩
  · rintro ⟨x, hx, rfl, hb⟩
    obtain ⟨g, hg, hgate⟩ := h.exists_gate hx
    obtain ⟨-, hid, hs, -⟩ := GateRecord.gate?_eq_some hgate
    exact ⟨g, hg, hid, by simpa [Gate.inputs, hs] using hb⟩

theorem acyclic_iff (h : r.Describes c) :
    c.Acyclic ↔ ∀ id, ¬ Relation.TransGen r.DependsOn id id := by
  have hdep : c.DependsOn = r.DependsOn := by
    funext a b
    exact propext h.dependsOn_iff
  unfold Circuit.Acyclic Circuit.OnLoop
  rw [hdep]

theorem coherent (h : r.Describes c) : r.Coherent := by
  have hc := h.wellFormed
  have hids := h.declared.ids_perm
  have hmem : ∀ {source target : GateId} {slot : Nat},
      (source, target, slot) ∈ c.wires.map Wire.ends ↔ ⟨source, target, slot⟩ ∈ r.wires := by
    rw [h.wires]
    exact WireRecord.mem_map_ends
  have hfilled : ∀ x ∈ r.gates, ∀ (slot : Nat) (source : GateId),
      x.slots[slot]? = some (some source) ↔ ⟨source, x.id, slot⟩ ∈ r.wires := by
    intro x hx slot source
    obtain ⟨g, hg, hgate⟩ := h.exists_gate hx
    obtain ⟨-, hid, hs, -⟩ := GateRecord.gate?_eq_some hgate
    rw [← hmem, ← hid, ← hc.driver?_eq_some_iff hg, Gate.driver?_eq_some, hs]
  refine ⟨fun x hx => (h.declared.admissible x hx).kind, hids.nodup_iff.mp hc.nodup_ids,
    fun x hx => (h.declared.admissible x hx).bound, fun w hw => ?_, ?_,
    fun x hx slot _ => hfilled x hx slot, fun x hx slot hlt => ?_⟩
  · have hwire : w.wire ∈ c.wires := h.wires ▸ List.mem_map_of_mem hw
    obtain ⟨g, hg, hid, hd⟩ := (hc.wired _ _ _).mp (hmem.mpr hw)
    obtain ⟨x, hx, hgate⟩ := h.mem_gates.mp hg
    obtain ⟨hk, hxid, -, -⟩ := GateRecord.gate?_eq_some hgate
    have hlt := Gate.driver?_lt hd
    rw [hc.arity g hg] at hlt
    exact ⟨hids.mem_iff.mp (hc.sourced _ hwire), hc.proper _ hwire, x, hx, hxid.symm.trans hid,
      g.kind, hk, hlt⟩
  · have hsingle := hc.single
    rw [h.wires, List.map_map] at hsingle
    exact hsingle
  · constructor
    · rintro hnone w hw ⟨ht, rfl⟩
      have hsome := (hfilled x hx w.slot w.source).mpr (by rwa [← ht])
      rw [hnone] at hsome
      cases hsome
    · intro hfree
      rw [List.getElem?_eq_getElem hlt, Option.some.injEq, Option.eq_none_iff_forall_ne_some]
      intro source he
      have hwire := (hfilled x hx slot source).mp (by rw [List.getElem?_eq_getElem hlt, he])
      exact hfree _ hwire ⟨rfl, rfl⟩

/-- A record describes at most one circuit. -/
theorem unique (h : r.Describes c) (h' : r.Describes d) : c = d := by
  have hgates : c.gates = d.gates := by
    have hperm : c.gates.Perm d.gates := by
      rw [List.perm_ext_iff_of_nodup (.of_map _ h.wellFormed.nodup_ids)
        (.of_map _ h'.wellFormed.nodup_ids)]
      intro g
      rw [h.mem_gates, h'.mem_gates]
    refine hperm.eq_of_pairwise (fun a b _ _ hab hba => absurd hab hba.asymm)
      (List.pairwise_map.mp h.wellFormed.ascending) (List.pairwise_map.mp h'.wellFormed.ascending)
  have hids : c.ids = d.ids := by rw [Circuit.ids, Circuit.ids, hgates]
  have hnext : c.nextId = d.nextId :=
    le_antisymm ((h.nextId _).mpr (hids ▸ (h'.nextId _).mp le_rfl))
      ((h'.nextId _).mpr (hids ▸ (h.nextId _).mp le_rfl))
  have hwires := h.wires.trans h'.wires.symm
  obtain ⟨gates, wires, nextId⟩ := c
  exact (Circuit.mk.injEq ..).mpr ⟨hgates, hwires, hnext⟩

/-- The order of the gates in the record does not matter. -/
theorem perm (h : r.Describes c) {gates : List GateRecord} (hp : gates.Perm r.gates) :
    ({ r with gates } : CircuitRecord).Describes c where
  wellFormed := h.wellFormed
  declared := ⟨fun x hx => h.declared.admissible x (hp.mem_iff.mp hx),
    h.declared.bare.trans (hp.map _).symm⟩
  slots x hx := h.slots x (hp.mem_iff.mp hx)
  wires := h.wires
  nextId := h.nextId

end Describes

/-! ## From the record to the circuit -/

/-- A circuit with the gates of the record up to their slots, and with its wires, has the slots that
the record declares as well. -/
theorem Coherent.slots_eq (h : r.Coherent) (hc : c.WellFormed)
    (hd : Circuit.Declared r.gates c.gates) (hw : c.wires = r.wires.map WireRecord.wire) :
    ∀ x ∈ r.gates, (c.gate? x.id).map (·.slots) = some x.slots := by
  intro x hx
  obtain ⟨g, hg, g', hg', hb⟩ := hd.exists_gate hx
  obtain ⟨hk', hid⟩ := GateRecord.of_bare hg' hb
  obtain ⟨kind, hk, hlength⟩ := h.kinds x hx
  obtain rfl := Option.some.inj (hk.symm.trans hk')
  have hs : g'.slots = x.slots := (GateRecord.gate?_eq_some hg').2.2.1
  have hl : g.slots.length = g'.slots.length := by rw [hs, hc.arity g hg, hlength]
  rw [hc.gate?_eq_some.mpr ⟨hg, hid⟩, Option.map_some, ← hs]
  refine congrArg some (Gate.slots_eq_of_driver? hl fun slot source => ?_)
  by_cases hlt : slot < x.slots.length
  · rw [hc.driver?_eq_some_iff hg, hw, WireRecord.mem_map_ends, hid, Gate.driver?_eq_some, hs,
      h.filled x hx slot hlt source]
  · rw [← hs] at hlt
    exact ⟨fun hdr => absurd (hl ▸ Gate.driver?_lt hdr) hlt,
      fun hdr => absurd (Gate.driver?_lt hdr) hlt⟩

/-- The wires lead to slots of the gates. -/
theorem Coherent.ends_of_declared (h : r.Coherent) (hd : Circuit.Declared r.gates c.gates) :
    ∀ w ∈ r.wires, w.source ∈ c.ids ∧ w.source ≠ w.target ∧
      ∃ g ∈ c.gates, g.id = w.target ∧ w.slot < g.kind.arity := by
  intro w hw
  obtain ⟨hsource, hne, x, hx, hid, kind, hk, hlt⟩ := h.ends w hw
  obtain ⟨g, hg, g', hg', hb⟩ := hd.exists_gate hx
  obtain ⟨hk', hgid⟩ := GateRecord.of_bare hg' hb
  obtain rfl := Option.some.inj (hk.symm.trans hk')
  exact ⟨hd.ids_perm.mem_iff.mpr hsource, hne, g, hg, hgid.trans hid, hlt⟩

theorem describes_of_linked (hg : Circuit.Gathered r.gates d) (hl : d.Linked r.wires c)
    (hs : ∀ x ∈ r.gates, (c.gate? x.id).map (·.slots) = some x.slots) : r.Describes c where
  wellFormed := hl.wellFormed
  declared := hg.declared.of_map_bare hl.gates
  slots := hs
  wires := hl.wires
  nextId := by
    rw [hl.nextId, hl.ids]
    exact hg.nextId

/-- A record whose parts agree describes a circuit, and nothing but a loop keeps this one from
being made. -/
theorem Coherent.exists_described (h : r.Coherent) :
    ∃ c, r.Describes c ∧ r.circuit = (c.checkAcyclic.mapError .loop).map fun _ => c := by
  obtain ⟨d, hgates⟩ :=
    Circuit.Gathered.exists_foldlM (fun x hx => ⟨h.kinds x hx, h.bound x hx⟩) h.distinct
  have hg := Circuit.Gathered.of_foldlM hgates
  obtain ⟨c, hwires⟩ :=
    Circuit.Linked.exists_foldlM hg.wellFormed hg.wires (h.ends_of_declared hg.declared) h.single
  have hl := Circuit.Linked.of_foldlM hg.wellFormed hg.wires hwires
  have hs := h.slots_eq hl.wellFormed (hg.declared.of_map_bare hl.gates) hl.wires
  have hchecks : r.gates.forM (·.check c) = .ok () :=
    forM_eq_ok_iff.mpr fun x hx => (Circuit.check_eq_ok_iff hl.wellFormed).mpr (hs x hx)
  refine ⟨c, describes_of_linked hg hl hs, ?_⟩
  unfold circuit
  rw [hgates, ok_bind, hwires, ok_bind, hchecks, ok_bind]
  cases c.checkAcyclic with
  | ok _ => rfl
  | error _ => rfl

theorem Describes.circuit_eq (h : r.Describes c) :
    r.circuit = (c.checkAcyclic.mapError .loop).map fun _ => c := by
  obtain ⟨d, hd, hcircuit⟩ := h.coherent.exists_described
  rw [hcircuit, h.unique hd]

theorem Describes.circuit_of_acyclic (h : r.Describes c) (ha : c.Acyclic) : r.circuit = .ok c := by
  rw [h.circuit_eq, (Circuit.checkAcyclic_eq_ok h.wellFormed).mpr ha]
  rfl

theorem Describes.circuit_of_looped (h : r.Describes c) (ha : ¬ c.Acyclic) :
    ∃ e, r.circuit = .error (.loop e) := by
  cases hcheck : c.checkAcyclic with
  | ok _ => exact absurd ((Circuit.checkAcyclic_eq_ok h.wellFormed).mp hcheck) ha
  | error e =>
    refine ⟨e, ?_⟩
    rw [h.circuit_eq, hcheck]
    rfl

theorem describes_of_circuit (h : r.circuit = .ok c) : r.Describes c ∧ c.Acyclic := by
  unfold circuit at h
  obtain ⟨d, hg, h⟩ := bind_eq_ok.mp h
  obtain ⟨e, hw, h⟩ := bind_eq_ok.mp h
  obtain ⟨_, hs, h⟩ := bind_eq_ok.mp h
  cases hcheck : e.checkAcyclic with
  | error _ =>
    rw [hcheck] at h
    cases h
  | ok _ =>
    rw [hcheck] at h
    cases h
    have hgathered := Circuit.Gathered.of_foldlM hg
    have hlinked := Circuit.Linked.of_foldlM hgathered.wellFormed hgathered.wires hw
    have hc := hlinked.wellFormed
    refine ⟨describes_of_linked hgathered hlinked fun x hx => ?_,
      (Circuit.checkAcyclic_eq_ok hc).mp hcheck⟩
    exact (Circuit.check_eq_ok_iff hc).mp (forM_eq_ok_iff.mp hs x hx)

end CircuitRecord

end LogicCircuit
