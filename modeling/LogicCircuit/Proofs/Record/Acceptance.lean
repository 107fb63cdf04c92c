import LogicCircuit.Proofs.Circuit.Representation
import LogicCircuit.Proofs.Record.Rebuild

/-!
# Which records are accepted

A record may contradict itself in many ways. It is accepted exactly if its parts agree with each
other and it declares no loop, `CircuitRecord.Consistent`. The circuit then has the gates of the
record, sorted, with the slots that the record declares for them, and the wires of the record in
their order.

Results:
* `Describes.reloaded_eq`, `Describes.gates_perm`: the circuit compared with its record.
* `circuit_exact`: which records are accepted, and what their circuits are.
-/

namespace LogicCircuit

/-! ## Consistent records -/

/-- The record describes a circuit without a loop. -/
structure CircuitRecord.Consistent (r : CircuitRecord) : Prop extends r.Coherent where
  acyclic : ∀ id, ¬ Relation.TransGen r.DependsOn id id

/-- The record of a gate with its kind named in the usual way. -/
def GateRecord.canonical (r : GateRecord) : GateRecord :=
  { r with kind := ((GateKind.ofText? r.kind).map GateKind.text).getD r.kind }

theorem GateRecord.record_of_gate? {x : GateRecord} {g : Gate} (h : x.gate? = some g) :
    g.record = x.canonical := by
  obtain ⟨kind, hk, rfl⟩ := Option.map_eq_some_iff.mp h
  simp [canonical, hk, Gate.record]

namespace CircuitRecord

variable {r : CircuitRecord} {c : Circuit}

theorem Describes.consistent (h : r.Describes c) (ha : c.Acyclic) : r.Consistent :=
  { h.coherent with acyclic := h.acyclic_iff.mp ha }

/-- A consistent record is accepted. -/
theorem Consistent.exists_circuit (h : r.Consistent) : ∃ c, r.circuit = .ok c := by
  obtain ⟨c, hc, -⟩ := h.toCoherent.exists_described
  exact ⟨c, hc.circuit_of_acyclic (hc.acyclic_iff.mpr h.acyclic)⟩

end CircuitRecord

/-! ## The record of the circuit -/

namespace CircuitRecord.Describes

variable {r : CircuitRecord} {c : Circuit}

/-- Nothing is marked, and the next identifier is the one after the greatest. -/
theorem reloaded_eq (h : r.Describes c) : c.reloaded = c := by
  have hgates : c.gates.map (fun g => { g with active := false }) = c.gates := by
    refine (List.map_congr_left fun g hg => ?_).trans c.gates.map_id
    obtain ⟨x, -, hgate⟩ := h.mem_gates.mp hg
    rw [← (GateRecord.gate?_eq_some hgate).2.2.2]
    rfl
  have hwires : c.wires.map (fun w => { w with active := false }) = c.wires := by
    rw [h.wires, List.map_map]
    rfl
  have hnext : Circuit.idAfter c.ids = c.nextId :=
    le_antisymm (Circuit.idAfter_le_iff.mpr ((h.nextId _).mp le_rfl))
      ((h.nextId _).mpr (Circuit.idAfter_le_iff.mp le_rfl))
  unfold Circuit.reloaded Circuit.clearActivity
  rw [hgates, hwires, hnext]

theorem isAlpha (h : r.Describes c) : ∀ l ∈ c.letters, l.isAlpha = true := by
  intro l hl
  obtain ⟨g, hg, hk⟩ := Circuit.mem_letters.mp hl
  obtain ⟨x, -, hgate⟩ := h.mem_gates.mp hg
  exact (GateKind.of_ofText? (GateRecord.gate?_eq_some hgate).1).2 l hk

theorem gates_perm (h : r.Describes c) :
    c.record.gates.Perm (r.gates.map GateRecord.canonical) := by
  have hleft : (c.record.gates.map (·.id)) = c.ids := by
    show (c.gates.map Gate.record).map _ = _
    rw [List.map_map]
    rfl
  have hright : (r.gates.map GateRecord.canonical).map (·.id) = r.gates.map (·.id) := by
    rw [List.map_map]
    rfl
  have hnodup := h.wellFormed.nodup_ids
  rw [List.perm_ext_iff_of_nodup (.of_map (·.id) (hleft ▸ hnodup))
    (.of_map (·.id) (hright ▸ h.declared.ids_perm.nodup_iff.mp hnodup))]
  intro y
  show y ∈ c.gates.map Gate.record ↔ _
  rw [List.mem_map, List.mem_map]
  constructor
  · rintro ⟨g, hg, rfl⟩
    obtain ⟨x, hx, hgate⟩ := h.mem_gates.mp hg
    exact ⟨x, hx, (GateRecord.record_of_gate? hgate).symm⟩
  · rintro ⟨x, hx, rfl⟩
    obtain ⟨g, hg, hgate⟩ := h.exists_gate hx
    exact ⟨g, hg, GateRecord.record_of_gate? hgate⟩

end CircuitRecord.Describes

namespace CircuitRecord

/-- What a circuit is to the record from which it was made. -/
structure Canonicalized (r : CircuitRecord) (c : Circuit) : Prop where
  represented : c.Represented
  consistent : c.isConsistent = true
  /-- The gates are those of the record with the usual names of their kinds. -/
  gates : c.record.gates.Perm (r.gates.map GateRecord.canonical)
  /-- They are sorted by their identifiers. -/
  sorted : (c.record.gates.map (·.id)).Pairwise (· < ·)
  wires : c.record.wires = r.wires
  /-- The order of the gates in the record does not matter. -/
  permuted : ∀ gates : List GateRecord, gates.Perm r.gates →
    ({ r with gates } : CircuitRecord).circuit = .ok c
  /-- The record of the circuit gives the circuit again. -/
  again : c.record.circuit = .ok c

/-- Exactly the consistent records are accepted, and each is brought into its canonical form. -/
structure AcceptedExactly (r : CircuitRecord) : Prop where
  accepted : (∃ c, r.circuit = .ok c) ↔ r.Consistent
  canonicalized : ∀ c, r.circuit = .ok c → r.Canonicalized c

/-- A record is accepted exactly if it is consistent, however its gates and wires are ordered and
whatever else it says. Its circuit has the record itself, with sorted gates and canonical names. -/
theorem circuit_exact (r : CircuitRecord) : r.AcceptedExactly := by
  constructor
  · constructor
    · rintro ⟨c, hc⟩
      obtain ⟨h, ha⟩ := describes_of_circuit hc
      exact h.consistent ha
    · exact Consistent.exists_circuit
  · intro c hc
    obtain ⟨h, ha⟩ := describes_of_circuit hc
    refine ⟨h.wellFormed.represented, h.wellFormed.isConsistent, h.gates_perm, ?_, ?_, ?_, ?_⟩
    · show ((c.gates.map Gate.record).map _).Pairwise _
      rw [List.map_map]
      exact h.wellFormed.ascending
    · show c.wires.map Wire.record = r.wires
      rw [h.wires, List.map_map]
      exact r.wires.map_id
    · exact fun gates hp => (h.perm hp).circuit_of_acyclic ha
    · rw [Circuit.circuit_record_of_acyclic h.wellFormed h.isAlpha ha, h.reloaded_eq]

/-- The gates of a record in any order, with the names of their kinds in any case. -/
def shuffled : CircuitRecord where
  gates := [
    { id := 7, kind := " xor ", slots := [some 3, some 9] },
    { id := 9, kind := "Const1", slots := [], x := -20 },
    { id := 3, kind := "var(b)", slots := [], value := .known true }]
  wires := [⟨9, 7, 1⟩, ⟨3, 7, 0⟩]

example : shuffled.circuit.map Circuit.record = .ok {
    gates := [
      { id := 3, kind := "VAR(B)", slots := [], value := .known true },
      { id := 7, kind := "XOR", slots := [some 3, some 9] },
      { id := 9, kind := "CONST1", slots := [], x := -20 }]
    wires := [⟨9, 7, 1⟩, ⟨3, 7, 0⟩] } := by decide

end CircuitRecord

end LogicCircuit
