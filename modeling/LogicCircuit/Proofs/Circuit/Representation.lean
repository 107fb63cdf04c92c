import LogicCircuit.Proofs.Circuit.Reachable

/-!
# The representation of a circuit

A circuit keeps its connections twice, and a counter besides. `Circuit.Represented` says what the
three have to do with each other: above all, that sending a wire to the slot it enters is a
bijection between the list of wires and the filled slots.

Results:
* `WellFormed.bijOn_entry`: wires and filled slots correspond one to one.
* `represented`: every circuit that arises by building, loading and editing is represented
  properly, and passes the consistency check.
-/

namespace LogicCircuit

/-- Where a wire enters: the gate and the slot. -/
def Wire.entry (w : Wire) : GateId × Nat := (w.target, w.slot)

namespace Circuit

/-- The filled slots of all gates, each given by its gate and its place in that gate. -/
def filledSlots (c : Circuit) : Set (GateId × Nat) :=
  {p | ∃ g ∈ c.gates, g.id = p.1 ∧ ∃ d, g.slots[p.2]? = some (some d)}

/-- The gates, the wires and the next identifier of a circuit agree with each other. -/
structure Represented (c : Circuit) : Prop where
  /-- The identifiers ascend strictly. -/
  ascending : c.ids.Pairwise (· < ·)
  below : ∀ g ∈ c.gates, g.id < c.nextId
  bounded : c.nextId ≤ idBound
  slots : ∀ g ∈ c.gates, g.slots.length = g.kind.arity
  /-- The places in the list of wires correspond to the filled slots one to one. -/
  bijective : Set.BijOn (fun i : Fin c.wires.length => c.wires[i].entry) Set.univ c.filledSlots
  /-- The slot that a wire enters holds the gate that the wire leaves. -/
  content : ∀ w ∈ c.wires, ∃ g ∈ c.gates, g.id = w.target ∧ g.slots[w.slot]? = some (some w.source)
  /-- A wire joins two different gates of the circuit. -/
  ends : ∀ w ∈ c.wires, w.source ∈ c.ids ∧ w.target ∈ c.ids ∧ w.source ≠ w.target
  capital : ∀ g ∈ c.gates, ∀ letter, g.kind = .var letter → letter.isLower = false

variable {c : Circuit}

theorem isLower_of_normalized {letter : Char}
    (h : (GateKind.var letter).normalized = .var letter) : letter.isLower = false := by
  have hup : letter.toUpper = letter := by simpa [GateKind.normalized] using h
  rw [← hup]
  exact letter.isLower_toUpper_eq_false

namespace WellFormed

theorem content (hc : c.WellFormed) {w : Wire} (hw : w ∈ c.wires) :
    ∃ g ∈ c.gates, g.id = w.target ∧ g.slots[w.slot]? = some (some w.source) := by
  obtain ⟨g, hg, hid, hd⟩ := (hc.wired _ _ _).mp (List.mem_map_of_mem (f := Wire.ends) hw)
  exact ⟨g, hg, hid, Gate.driver?_eq_some.mp hd⟩

/-- Wires and filled slots correspond one to one. -/
theorem bijOn_entry (hc : c.WellFormed) :
    Set.BijOn (fun i : Fin c.wires.length => c.wires[i].entry) Set.univ c.filledSlots := by
  have hnodup : (c.wires.map Wire.entry).Nodup := hc.single
  refine ⟨?_, ?_, ?_⟩
  · rintro i -
    obtain ⟨g, hg, hid, hs⟩ := hc.content (List.getElem_mem i.isLt)
    exact ⟨g, hg, hid, _, hs⟩
  · rintro i - j - hij
    have hinj := List.nodup_iff_injective_get.mp hnodup
    have hget : (c.wires.map Wire.entry).get (i.cast (List.length_map _).symm) =
        (c.wires.map Wire.entry).get (j.cast (List.length_map _).symm) := by
      simpa using hij
    simpa using hinj hget
  · rintro ⟨target, slot⟩ ⟨g, hg, rfl, d, hs⟩
    obtain ⟨w, hw, he⟩ := List.mem_map.mp
      ((hc.wired d g.id slot).mpr ⟨g, hg, rfl, Gate.driver?_eq_some.mpr hs⟩)
    obtain ⟨i, hi, rfl⟩ := List.mem_iff_getElem.mp hw
    simp only [Wire.ends, Prod.mk.injEq] at he
    exact ⟨⟨i, hi⟩, trivial, Prod.ext he.2.1 he.2.2⟩

theorem represented (hc : c.WellFormed) : c.Represented where
  ascending := hc.ascending
  below := hc.below
  bounded := hc.bounded
  slots := hc.arity
  bijective := hc.bijOn_entry
  content _ hw := hc.content hw
  ends w hw := ⟨hc.sourced w hw, hc.target_mem hw, hc.proper w hw⟩
  capital g hg _ hk := isLower_of_normalized (hk ▸ hc.normalized g hg)

end WellFormed

/-- Every circuit that comes from nothing, from formulas or from a record and is then edited, by
any operations with any arguments in any order, is represented properly, and passes the
consistency check. -/
theorem represented_of_reachable (hc : c.Reachable) : c.Represented ∧ c.isConsistent = true :=
  ⟨hc.wellFormed.represented, hc.wellFormed.isConsistent⟩

/-- A record whose gate takes the greatest identifier that a gate may have. -/
def greatestId : CircuitRecord :=
  { gates := [{ id := 4294967294, kind := " var(a) ", slots := [] }] }

/-- The circuit of the record, in which no identifier is left to be given out in order. -/
def exhausted : Circuit :=
  { gates := [Gate.fresh 4294967294 (.var 'A') {}], nextId := 4294967295 }

/-- From then on the smallest free identifier is taken: zero, and one; then zero again, after its
gate has been removed while two wires joined it to others. -/
def reused : List Edit :=
  [.addGate .not {}, .connect 4294967294 0 0, .connect 4294967294 0 0, .addGate (.binary .xor) {},
    .connect 0 1 1, .removeGate 0, .addGate (.var 'a') {}, .connect 0 1 0, .disconnect 1 1,
    .advance .idle]

theorem represented_of_reachable_reused :
    (reused.foldl Edit.apply exhausted).Reachable ∧
      (reused.foldl Edit.apply exhausted).Represented ∧
      (reused.foldl Edit.apply exhausted).isConsistent = true := by
  have hload : greatestId.circuit = .ok exhausted := by decide
  have hr : (reused.foldl Edit.apply exhausted).Reachable := (Reachable.loaded hload).edits
    ⟨(by decide : 1 < idBound), trivial, trivial, (by decide : 2 < idBound), trivial, trivial,
      (by decide : 2 < idBound), trivial, trivial, trivial, trivial⟩
  exact ⟨hr, represented_of_reachable hr⟩

end Circuit

end LogicCircuit
