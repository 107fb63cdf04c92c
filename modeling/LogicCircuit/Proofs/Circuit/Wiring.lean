import LogicCircuit.Proofs.Circuit.InPlace
import LogicCircuit.Proofs.Circuit.Representation

/-!
# Wiring can be undone

A connection is written down twice, in the slot it fills and in the list of wires, and the edits
look for it in either place. As no two wires enter one slot, the wire found for a slot is the only
one, and it names what the slot holds. So connecting and disconnecting cancel, disconnecting some
slots comes to the same in every order, and removing a gate is disconnecting every wire at it and
then dropping a gate that nothing mentions any more. An edit that is refused leaves nothing half
done, also where it is made in place.

Results:
* `connect_disconnect?`, `disconnect?_connect`: each of the two undoes the other, except that a wire
  connected again is the last one, and not marked.
* `disconnectAll?_eq`: what is left after some slots have been disconnected.
* `removeGate?_eq_dropGate`: what is still to be removed when no wire is left at a gate.
* `WellFormed.connect_eq_error_iff`: which error a connection is refused with.
* `wiring_exact`: when the three edits succeed, and what comes of them.
-/

namespace LogicCircuit

/-! ## Emptying slots -/

namespace Gate

/-- The gate with some slots emptied, each given by its gate and its place in that gate. -/
def emptied (g : Gate) (entries : List (GateId × Nat)) : Gate :=
  { g with slots := g.slots.mapIdx fun i s => if (g.id, i) ∈ entries then none else s }

theorem emptied_emptied (g : Gate) (es fs : List (GateId × Nat)) :
    (g.emptied es).emptied fs = g.emptied (es ++ fs) := by
  simp only [emptied, List.mapIdx_mapIdx, Gate.mk.injEq, and_true, true_and]
  congr 1
  funext i s
  simp only [Function.comp_apply, List.mem_append]
  split_ifs <;> simp_all

theorem slots_emptied (g : Gate) (es : List (GateId × Nat)) (i : Nat) :
    (g.emptied es).slots[i]? = if (g.id, i) ∈ es then g.slots[i]?.map fun _ => none
      else g.slots[i]? := by
  unfold emptied
  rw [List.getElem?_mapIdx]
  split_ifs <;> simp

theorem emptied_of_notMem {g : Gate} {es : List (GateId × Nat)} (h : ∀ e ∈ es, e.1 ≠ g.id) :
    g.emptied es = g := by
  have hslots : (g.emptied es).slots = g.slots := by
    refine List.ext_getElem? fun i => ?_
    rw [slots_emptied, if_neg fun hmem => h (g.id, i) hmem rfl]
  exact congrArg (fun slots => { g with slots }) hslots

theorem emptied_singleton (g : Gate) (slot : Nat) :
    g.emptied [(g.id, slot)] = { g with slots := g.slots.set slot none } := by
  have hslots : (g.emptied [(g.id, slot)]).slots = g.slots.set slot none := by
    refine List.ext_getElem? fun i => ?_
    rw [slots_emptied, List.getElem?_set]
    by_cases hi : i = slot
    · subst hi
      by_cases hlt : i < g.slots.length <;> simp [hlt]
    · simp [hi, Ne.symm hi]
  exact congrArg (fun slots => { g with slots }) hslots

theorem driver?_emptied (g : Gate) (es : List (GateId × Nat)) (slot : Nat) :
    (g.emptied es).driver? slot = if (g.id, slot) ∈ es then none else g.driver? slot := by
  unfold driver?
  rw [slots_emptied]
  split_ifs
  · cases g.slots[slot]? <;> rfl
  · rfl

/-- A slot that exists and that no gate fills. -/
theorem slots_eq_some_none {g : Gate} {slot : Nat} :
    g.slots[slot]? = some none ↔ slot < g.slots.length ∧ g.driver? slot = none := by
  unfold driver?
  rcases hs : g.slots[slot]? with - | (- | id)
  · simpa using List.getElem?_eq_none_iff.mp hs
  · simpa using (List.getElem?_eq_some_iff.mp hs).1
  · simp

end Gate

namespace Circuit

variable {c d : Circuit} {source target id : GateId} {slot : Nat} {w : Wire}

theorem setSlot_setSlot (c : Circuit) (target : GateId) (slot : Nat) (s t : Option GateId) :
    (c.setSlot target slot s).setSlot target slot t = c.setSlot target slot t := by
  simp only [setSlot, modifyGate, mapGates, List.map_map, Circuit.mk.injEq, and_true]
  refine List.map_congr_left fun g _ => ?_
  by_cases h : g.id = target <;> simp [h]

/-- Setting a slot to what it holds changes nothing. -/
theorem WellFormed.setSlot_eq_self (hc : c.WellFormed) {g : Gate} (hg : g ∈ c.gates)
    {content : Option GateId} (h : g.slots[slot]? = some content) :
    c.setSlot g.id slot content = c := by
  have hgates : (c.setSlot g.id slot content).gates = c.gates := by
    refine (List.map_congr_left fun a ha => ?_).trans (List.map_id' _)
    split_ifs with hid
    · obtain rfl := hc.eq_of_id_eq ha hg hid
      obtain ⟨hlt, hget⟩ := List.getElem?_eq_some_iff.mp h
      simp only [← hget, List.set_getElem_self]
    · rfl
  exact congrArg (fun gates => { c with gates }) hgates

/-- The circuit with some slots emptied, and without the wires that entered them. -/
def without (c : Circuit) (entries : List (GateId × Nat)) : Circuit :=
  { c with
    gates := c.gates.map (·.emptied entries)
    wires := c.wires.filter (·.entry ∉ entries) }

theorem ids_without (c : Circuit) (es : List (GateId × Nat)) : (c.without es).ids = c.ids := by
  simp [without, ids, Gate.emptied, Function.comp_def]

theorem without_nil (c : Circuit) : c.without [] = c := by
  simp [without, Gate.emptied_of_notMem]

theorem without_without (c : Circuit) (es fs : List (GateId × Nat)) :
    (c.without es).without fs = c.without (es ++ fs) := by
  simp only [without, List.map_map, List.filter_filter, Circuit.mk.injEq, and_true]
  refine ⟨List.map_congr_left fun g _ => g.emptied_emptied es fs, List.filter_congr fun w _ => ?_⟩
  simp [List.mem_append, not_or, Bool.and_comm]

theorem without_singleton (c : Circuit) (target : GateId) (slot : Nat) :
    c.without [(target, slot)] = { c.setSlot target slot none with
      wires := c.wires.filter (!·.enters target slot) } := by
  simp only [without, setSlot, modifyGate, mapGates, Circuit.mk.injEq, and_true]
  refine ⟨List.map_congr_left fun g _ => ?_, List.filter_congr fun w _ => ?_⟩
  · split_ifs with h
    · rw [← h, g.emptied_singleton]
    · exact Gate.emptied_of_notMem (by simpa using Ne.symm h)
  · rw [Bool.eq_iff_iff, decide_eq_true_eq, List.mem_singleton, Bool.not_eq_true',
      Bool.eq_false_iff, Ne, Wire.enters_iff]
    rfl

/-! ## One wire -/

namespace WellFormed

/-- A wire is determined by the slot it enters. -/
theorem eq_of_entry_eq (hc : c.WellFormed) {v : Wire} (hv : v ∈ c.wires) (hw : w ∈ c.wires)
    (h : v.entry = w.entry) : v = w :=
  List.inj_on_of_nodup_map hc.single hv hw h

theorem nodup_wires (hc : c.WellFormed) : c.wires.Nodup := .of_map _ hc.single

/-- Disconnecting the slot that a wire enters takes that wire away and nothing else. -/
theorem disconnect?_entry (hc : c.WellFormed) (hw : w ∈ c.wires) :
    c.disconnect? w.target w.slot = some (w, c.without [w.entry]) := by
  have hfind : c.wires.find? (·.enters w.target w.slot) = some w := by
    cases hf : c.wires.find? (·.enters w.target w.slot) with
    | none => exact absurd (Wire.enters_iff.mpr rfl) (List.find?_eq_none.mp hf w hw)
    | some v =>
      have hentry : v.entry = w.entry :=
        Wire.enters_iff.mp (List.find?_some (p := fun u : Wire => u.enters w.target w.slot) hf)
      rw [hc.eq_of_entry_eq (List.mem_of_find?_eq_some hf) hw hentry]
  unfold disconnect?
  rw [hfind, Option.map_some, eraseP_eq_filter hc.single fun _ => Wire.enters_iff, Wire.entry,
    without_singleton]

theorem disconnect?_eq_some_iff (hc : c.WellFormed) : c.disconnect? target slot = some (w, d) ↔
    w ∈ c.wires ∧ w.entry = (target, slot) ∧ d = c.without [w.entry] := by
  constructor
  · intro h
    obtain ⟨v, hv, he⟩ := Option.map_eq_some_iff.mp h
    have hmem := List.mem_of_find?_eq_some hv
    have hentry : v.entry = (target, slot) :=
      Wire.enters_iff.mp (List.find?_some (p := fun u : Wire => u.enters target slot) hv)
    obtain rfl : v = w := congrArg Prod.fst he
    have hd := hc.disconnect?_entry hmem
    simp only [Wire.entry, Prod.mk.injEq] at hentry
    rw [hentry.1, hentry.2, h] at hd
    exact ⟨hmem, Prod.ext hentry.1 hentry.2, congrArg Prod.snd (Option.some.inj hd)⟩
  · rintro ⟨hw, hentry, rfl⟩
    have hd := hc.disconnect?_entry hw
    simp only [Wire.entry, Prod.mk.injEq] at hentry
    rwa [hentry.1, hentry.2] at hd

/-- The wire that enters a slot comes from the gate that fills it. -/
theorem driver?_of_entry (hc : c.WellFormed) (hw : w ∈ c.wires) {g : Gate} (hg : g ∈ c.gates)
    (h : w.entry = (g.id, slot)) : g.driver? slot = some w.source := by
  rw [hc.driver?_eq_some_iff hg]
  refine List.mem_map.mpr ⟨w, hw, ?_⟩
  rw [← h]
  rfl

theorem exists_wire_of_driver? (hc : c.WellFormed) {g : Gate} (hg : g ∈ c.gates)
    (h : g.driver? slot = some source) :
    ∃ w ∈ c.wires, w.source = source ∧ w.entry = (g.id, slot) := by
  obtain ⟨w, hw, he⟩ := List.mem_map.mp ((hc.driver?_eq_some_iff hg).mp h)
  simp only [Wire.ends, Prod.mk.injEq] at he
  exact ⟨w, hw, he.1, Prod.ext he.2.1 he.2.2⟩

theorem without_entry (hc : c.WellFormed) (hw : w ∈ c.wires) : (c.without [w.entry]).WellFormed :=
  hc.disconnect (hc.disconnect?_entry hw)

end WellFormed

/-- A wire that has just been connected is found again, and taking it away leaves no trace. -/
theorem connect_disconnect? (hc : c.WellFormed) (h : c.connect source target slot = .ok d) :
    d.disconnect? target slot = some ({ source, target, slot }, c) := by
  have hd := hc.connect h
  obtain ⟨-, -, ⟨g, hg, hlt, hfree⟩, rfl⟩ := connect_eq_ok_iff.mp h
  obtain ⟨hmem, rfl⟩ := hc.gate?_eq_some.mp hg
  refine hd.disconnect?_eq_some_iff.mpr
    ⟨List.mem_append_right _ (List.mem_singleton_self _), rfl, ?_⟩
  have hslot : c.setSlot g.id slot none = c :=
    hc.setSlot_eq_self hmem (Gate.slots_eq_some_none.mpr ⟨hlt, hfree⟩)
  have hothers : c.wires.filter (!·.enters g.id slot) = c.wires := by
    rw [List.filter_eq_self]
    intro v hv
    rw [Bool.not_eq_true', Bool.eq_false_iff, Ne, Wire.enters_iff]
    intro hentry
    rw [hc.driver?_of_entry hv hmem hentry] at hfree
    cases hfree
  have hwires : (c.attach source g.id slot).wires.filter (!·.enters g.id slot) = c.wires := by
    rw [attach, List.filter_append, hothers, List.filter_cons_of_neg (by simp [Wire.enters])]
    simp
  have hundone := (c.setSlot_setSlot g.id slot (some source) none).trans hslot
  show c = (c.attach source g.id slot).without [(g.id, slot)]
  rw [without_singleton, hwires]
  exact (congrArg (fun e : Circuit => { e with wires := c.wires }) hundone).symm

/-- A wire that has been taken away can be connected again, and is the last one then. -/
theorem disconnect?_connect (hc : c.WellFormed) (h : c.disconnect? target slot = some (w, d)) :
    ∃ before behind, c.wires = before ++ w :: behind ∧ d.wires = before ++ behind ∧
      d.connect w.source target slot =
        .ok { c with wires := before ++ behind ++ [{ w with active := false }] } := by
  obtain ⟨hw, hentry, rfl⟩ := hc.disconnect?_eq_some_iff.mp h
  simp only [Wire.entry, Prod.mk.injEq] at hentry
  obtain ⟨rfl, rfl⟩ := hentry
  obtain ⟨before, behind, hsplit⟩ := List.append_of_mem hw
  obtain ⟨g, hg, hid, hs⟩ := hc.content hw
  have hlt : w.slot < g.slots.length := (List.getElem?_eq_some_iff.mp hs).1
  have hrest : (c.without [w.entry]).wires = before ++ behind := by
    have hnodup : (c.wires.map Wire.entry).Nodup := hc.single
    rw [hsplit, List.map_append, List.map_cons, List.nodup_middle, ← List.map_append,
      List.nodup_cons] at hnodup
    rw [without, hsplit, List.filter_append, List.filter_cons_of_neg (by simp),
      ← List.filter_append, List.filter_eq_self]
    intro v hv
    simpa using fun he : v.entry = w.entry => hnodup.1 (he ▸ List.mem_map_of_mem hv)
  have hempty : (g.emptied [w.entry]).driver? w.slot = none := by
    rw [Gate.driver?_emptied, if_pos (by simp [Wire.entry, hid])]
  have hgate : (c.without [w.entry]).gate? w.target = some (g.emptied [w.entry]) :=
    (hc.without_entry hw).gate?_eq_some.mpr ⟨List.mem_map_of_mem hg, hid⟩
  refine ⟨before, behind, hsplit, hrest, connect_eq_ok_iff.mpr ⟨?_, hc.proper w hw,
    ⟨_, hgate, by simpa [Gate.emptied] using hlt, hempty⟩, ?_⟩⟩
  · rw [ids_without]
    exact hc.sourced w hw
  · have hundone : (c.setSlot w.target w.slot none).setSlot w.target w.slot (some w.source) =
        c := by
      rw [setSlot_setSlot, ← hid]
      exact hc.setSlot_eq_self hg hs
    rw [attach, hrest, Wire.entry, without_singleton]
    exact congrArg (fun e : Circuit => { e with
      wires := before ++ behind ++ [{ w with active := false }] }) hundone.symm

/-! ## Several wires -/

/-- Disconnect slots one after the other. There is no result if one of them is not connected. -/
def disconnectAll? (c : Circuit) : List (GateId × Nat) → Option (List Wire × Circuit)
  | [] => some ([], c)
  | e :: rest => do
    let (w, c) ← c.disconnect? e.1 e.2
    let (ws, c) ← c.disconnectAll? rest
    return (w :: ws, c)

/-- Wires can be taken away in any order, and what is left does not depend on it. -/
theorem disconnectAll?_eq {ws : List Wire} (hc : c.WellFormed) (hws : ∀ w ∈ ws, w ∈ c.wires)
    (hn : ws.Nodup) :
    c.disconnectAll? (ws.map Wire.entry) = some (ws, c.without (ws.map Wire.entry)) := by
  induction ws generalizing c with
  | nil => rw [List.map_nil, disconnectAll?, without_nil]
  | cons w ws ih =>
    rw [List.forall_mem_cons] at hws
    obtain ⟨hnot, hn⟩ := List.nodup_cons.mp hn
    have hleft : ∀ v ∈ ws, v ∈ (c.without [w.entry]).wires := by
      intro v hv
      refine List.mem_filter.mpr ⟨hws.2 v hv, ?_⟩
      simpa using fun he : v.entry = w.entry =>
        hnot (hc.eq_of_entry_eq (hws.2 v hv) hws.1 he ▸ hv)
    have hfirst : c.disconnect? w.entry.1 w.entry.2 = some (w, c.without [w.entry]) :=
      hc.disconnect?_entry hws.1
    rw [List.map_cons, disconnectAll?, hfirst]
    simp only [Option.bind_eq_bind, Option.bind_some]
    rw [ih (hc.without_entry hws.1) hleft hn, without_without]
    rfl

/-! ## Removing a gate -/

/-- The wires that enter or leave a gate. -/
def wiresAt (c : Circuit) (id : GateId) : List Wire :=
  c.wires.filter fun w => w.source = id ∨ w.target = id

/-- The circuit without a gate, everything else as it is. -/
def dropGate (c : Circuit) (id : GateId) : Circuit :=
  { c with gates := c.gates.filter (·.id ≠ id) }

/-- The gate exists, its slots are empty, and neither a slot nor a wire mentions it. -/
structure Isolated (c : Circuit) (id : GateId) : Prop where
  empty : ∃ g ∈ c.gates, g.id = id ∧ ∀ slot < g.kind.arity, g.slots[slot]? = some none
  slots : ∀ g ∈ c.gates, some id ∉ g.slots
  wires : ∀ w ∈ c.wires, w.source ≠ id ∧ w.target ≠ id

section AllWires

variable {ws : List Wire} (hc : c.WellFormed) (hws : ws.Perm (c.wiresAt id))
include hc hws

omit hc in
theorem mem_of_perm_wiresAt : w ∈ ws ↔ w ∈ c.wires ∧ (w.source = id ∨ w.target = id) := by
  rw [hws.mem_iff, wiresAt, List.mem_filter, decide_eq_true_eq]

/-- The wires at a gate enter its own slots, and those that it fills. -/
theorem mem_entries_iff {g : Gate} (hg : g ∈ c.gates) (slot : Nat) :
    (g.id, slot) ∈ ws.map Wire.entry ↔
      ∃ source, g.driver? slot = some source ∧ (source = id ∨ g.id = id) := by
  constructor
  · intro h
    obtain ⟨w, hw, he⟩ := List.mem_map.mp h
    obtain ⟨hmem, hend⟩ := (mem_of_perm_wiresAt hws).mp hw
    exact ⟨w.source, hc.driver?_of_entry hmem hg he, (Prod.mk.inj he).1 ▸ hend⟩
  · rintro ⟨source, hd, hend⟩
    obtain ⟨w, hw, rfl, he⟩ := hc.exists_wire_of_driver? hg hd
    have htarget : w.target = g.id := (Prod.mk.inj he).1
    exact List.mem_map.mpr ⟨w, (mem_of_perm_wiresAt hws).mpr ⟨hw, htarget ▸ hend⟩, he⟩

theorem entry_mem_entries_iff (hw : w ∈ c.wires) :
    w.entry ∈ ws.map Wire.entry ↔ w.source = id ∨ w.target = id := by
  constructor
  · intro h
    obtain ⟨v, hv, he⟩ := List.mem_map.mp h
    obtain ⟨hmem, hend⟩ := (mem_of_perm_wiresAt hws).mp hv
    exact hc.eq_of_entry_eq hmem hw he ▸ hend
  · exact fun h => List.mem_map_of_mem ((mem_of_perm_wiresAt hws).mpr ⟨hw, h⟩)

/-- Without the wires at it, a gate is isolated. -/
theorem isolated_without (hid : id ∈ c.ids) : (c.without (ws.map Wire.entry)).Isolated id := by
  obtain ⟨g, hg, rfl⟩ := mem_ids.mp hid
  refine ⟨⟨_, List.mem_map_of_mem hg, rfl, fun slot hlt => ?_⟩, fun a ha hmem => ?_, fun w hw => ?_⟩
  · rw [Gate.slots_eq_some_none, Gate.driver?_emptied]
    refine ⟨by simpa [Gate.emptied, hc.arity g hg] using hlt, ?_⟩
    split_ifs with hentry
    · rfl
    · cases hd : g.driver? slot with
      | none => rfl
      | some source =>
        exact absurd ((mem_entries_iff hc hws hg slot).mpr ⟨source, hd, Or.inr rfl⟩) hentry
  · obtain ⟨b, hb, rfl⟩ := List.mem_map.mp ha
    obtain ⟨slot, hslot⟩ := List.mem_iff_getElem?.mp hmem
    have hd := Gate.driver?_eq_some.mpr hslot
    rw [Gate.driver?_emptied] at hd
    split_ifs at hd with hentry
    exact hentry ((mem_entries_iff hc hws hb slot).mpr ⟨g.id, hd, Or.inl rfl⟩)
  · obtain ⟨hw, hentry⟩ := List.mem_filter.mp hw
    rw [decide_eq_true_eq, entry_mem_entries_iff hc hws hw] at hentry
    exact not_or.mp hentry

/-- Of another gate, exactly the slots are emptied that the gate fills. -/
theorem forget_eq_emptied {g : Gate} (hg : g ∈ c.gates) (hne : g.id ≠ id) :
    g.forget id = g.emptied (ws.map Wire.entry) := by
  have hslots : (g.forget id).slots = (g.emptied (ws.map Wire.entry)).slots := by
    refine List.ext_getElem? fun i => ?_
    rw [Gate.slots_emptied, Gate.forget, List.getElem?_map]
    simp only [mem_entries_iff hc hws hg, Gate.driver?_eq_some, hne, or_false, exists_eq_right]
    rcases g.slots[i]? with - | s
    · simp
    · by_cases hs : s = some id <;> simp [hs]
  exact congrArg (fun slots => { g with slots }) hslots

/-- When no wire is left at a gate, nothing but the gate is still to be removed. -/
theorem removeGate?_eq_dropGate (hid : id ∈ c.ids) :
    c.removeGate? id = some ((c.without (ws.map Wire.entry)).dropGate id) := by
  have hgates : (c.gates.filter (·.id != id)).map (·.forget id) =
      (c.gates.map (·.emptied (ws.map Wire.entry))).filter (·.id ≠ id) := by
    have hsame : c.gates.filter (·.id != id) =
        c.gates.filter ((·.id ≠ id) ∘ (·.emptied (ws.map Wire.entry))) :=
      List.filter_congr fun g _ => by rw [Bool.eq_iff_iff]; simp [Gate.emptied]
    rw [List.filter_map, ← hsame]
    refine List.map_congr_left fun g hg => ?_
    obtain ⟨hg, hne⟩ := List.mem_filter.mp hg
    exact forget_eq_emptied hc hws hg (bne_iff_ne.mp hne)
  have hwires : (c.wires.filter fun w => w.source != id && w.target != id) =
      c.wires.filter (·.entry ∉ ws.map Wire.entry) := by
    refine List.filter_congr fun w hw => ?_
    rw [Bool.eq_iff_iff, decide_eq_true_eq, entry_mem_entries_iff hc hws hw]
    simp
  unfold removeGate?
  rw [if_pos (contains_iff.mpr hid), hgates, hwires]
  rfl

end AllWires

/-! ## What the edits come to -/

/-- The second gate is the first one, except that one of its slots holds something else. -/
structure Refilled (slot : Nat) (content : Option GateId) (g h : Gate) : Prop where
  same : h = { g with slots := h.slots }
  filled : h.slots[slot]? = some content
  others : ∀ i ≠ slot, h.slots[i]? = g.slots[i]?

/-- The second circuit is the first one with one more wire, the last one, in the slot it enters. -/
structure GainsWire (w : Wire) (c d : Circuit) : Prop where
  gates : List.Forall₂ (fun g h => if g.id = w.target then Refilled w.slot (some w.source) g h
    else h = g) c.gates d.gates
  wires : d.wires = c.wires ++ [w]
  nextId : d.nextId = c.nextId

/-- What is wrong with a connection. Where several things are, the first of them is reported. -/
inductive WrongConnection (c : Circuit) (source target : GateId) (slot : Nat) :
    CircuitError → Prop
  | noSource (hsource : source ∉ c.ids) : WrongConnection c source target slot (.unknownGate source)
  | itself (hsource : source ∈ c.ids) (hself : source = target) :
      WrongConnection c source target slot (.selfLoop source)
  | noTarget (hsource : source ∈ c.ids) (hne : source ≠ target) (htarget : target ∉ c.ids) :
      WrongConnection c source target slot (.unknownGate target)
  | noSlot {g : Gate} (hsource : source ∈ c.ids) (hne : source ≠ target) (hg : g ∈ c.gates)
      (hid : g.id = target) (hslot : g.kind.arity ≤ slot) :
      WrongConnection c source target slot (.arityMismatch target g.kind.arity slot)
  | taken {g : Gate} {d : GateId} (hsource : source ∈ c.ids) (hne : source ≠ target)
      (hg : g ∈ c.gates) (hid : g.id = target) (hd : g.slots[slot]? = some (some d)) :
      WrongConnection c source target slot (.slotTaken target slot)

/-- What connecting a slot comes to. -/
structure ConnectsExactly (c : Circuit) (source target : GateId) (slot : Nat) : Prop where
  /-- Both gates exist and differ, and the slot is one of those of its gate, and empty. -/
  accepted : (∃ d, c.connect source target slot = .ok d) ↔ source ∈ c.ids ∧ source ≠ target ∧
    ∃ g ∈ c.gates, g.id = target ∧ slot < g.kind.arity ∧ g.slots[slot]? = some none
  refused : ∀ e, c.connect source target slot = .error e ↔ WrongConnection c source target slot e
  /-- No part of a refused connection is made. -/
  unchanged : ∀ e, c.connect source target slot = .error e →
    (connectInPlace source target slot).run c = (.error e, c)
  /-- Otherwise a wire without a mark is added, and it can be taken away without a trace. -/
  connected : ∀ d, c.connect source target slot = .ok d →
    (connectInPlace source target slot).run c = (.ok (), d) ∧
      GainsWire { source, target, slot, active := false } c d ∧
      d.disconnect? target slot = some ({ source, target, slot, active := false }, c)

/-- What disconnecting a slot comes to. -/
structure DisconnectsExactly (c : Circuit) (target : GateId) (slot : Nat) : Prop where
  /-- The slot is one of those of its gate, and filled. -/
  found : (∃ w d, c.disconnect? target slot = some (w, d)) ↔
    ∃ g ∈ c.gates, g.id = target ∧ slot < g.kind.arity ∧
      ∃ source, g.slots[slot]? = some (some source)
  unchanged : c.disconnect? target slot = none →
    (disconnectInPlace target slot).run c = (none, c)
  /-- Otherwise the wire that enters the slot is taken away. Connecting it again gives the circuit
  back, except that the wire is the last one now, and has no mark. -/
  disconnected : ∀ w d, c.disconnect? target slot = some (w, d) →
    (disconnectInPlace target slot).run c = (some w, d) ∧ w.entry = (target, slot) ∧
    ∃ before behind, c.wires = before ++ w :: behind ∧ d.wires = before ++ behind ∧
      d.connect w.source w.target w.slot =
        .ok { c with wires := before ++ behind ++ [{ w with active := false }] }

/-- What removing a gate comes to. -/
structure RemovesExactly (c : Circuit) (id : GateId) : Prop where
  missing : id ∉ c.ids → c.removeGate? id = none ∧ (removeInPlace id).run c = (false, c)
  /-- The wires at the gate can be taken away one by one, in any order. What is left mentions the
  gate nowhere, and is what removing the gate leaves as soon as the gate is dropped. -/
  removed : id ∈ c.ids → ∀ ws : List Wire, ws.Perm (c.wiresAt id) →
    ∃ d, c.disconnectAll? (ws.map Wire.entry) = some (ws, d) ∧ d.Isolated id ∧
      c.removeGate? id = some (d.dropGate id) ∧ (d.dropGate id).nextId = c.nextId ∧
      (removeInPlace id).run c = (true, d.dropGate id)

theorem gainsWire_attach (hc : c.WellFormed) {g : Gate} (hg : g ∈ c.gates)
    (hlt : slot < g.slots.length) (source : GateId) :
    GainsWire { source, target := g.id, slot } c (c.attach source g.id slot) := by
  refine ⟨?_, rfl, rfl⟩
  show List.Forall₂ _ c.gates (c.gates.map _)
  rw [List.forall₂_map_right_iff, List.forall₂_same]
  intro a ha
  split_ifs with hid
  · obtain rfl := hc.eq_of_id_eq ha hg hid
    refine ⟨rfl, ?_, fun i hi => ?_⟩
    · simp [hlt]
    · simp [Ne.symm hi]
  · rfl

/-- The checks are made in this order, and each of them has an error of its own. -/
theorem WellFormed.connect_eq_error_iff (hc : c.WellFormed) {e : CircuitError} :
    c.connect source target slot = .error e ↔ WrongConnection c source target slot e := by
  have hmissing : (!c.contains source) = true ↔ source ∉ c.ids := by simp [← contains_iff]
  have hthere (h : source ∈ c.ids) : ¬(!c.contains source) = true := fun hn => hmissing.mp hn h
  unfold Circuit.connect
  constructor
  · intro h
    split_ifs at h with hsource hself
    · cases h
      exact .noSource (hmissing.mp hsource)
    all_goals have hsource : source ∈ c.ids := not_not.mp (mt hmissing.mpr hsource)
    · cases h
      exact .itself hsource hself
    · cases hg : c.gate? target with
      | none =>
        rw [hg] at h
        cases h
        exact .noTarget hsource hself (gate?_eq_none.mp hg)
      | some g =>
        rw [hg] at h
        obtain ⟨hmem, hid⟩ := hc.gate?_eq_some.mp hg
        dsimp only at h
        split_ifs at h with hslot htaken
        · cases h
          rw [hc.arity g hmem] at hslot ⊢
          exact .noSlot hsource hself hmem hid hslot
        · cases h
          obtain ⟨d, hd⟩ := Option.isSome_iff_exists.mp htaken
          exact .taken hsource hself hmem hid (Gate.driver?_eq_some.mp hd)
  · intro h
    cases h with
    | noSource hsource => rw [if_pos (hmissing.mpr hsource)]
    | itself hsource hself => rw [if_neg (hthere hsource), if_pos hself]
    | noTarget hsource hne htarget =>
      rw [if_neg (hthere hsource), if_neg hne, gate?_eq_none.mpr htarget]
    | noSlot hsource hne hg hid hslot =>
      rw [if_neg (hthere hsource), if_neg hne, hc.gate?_eq_some.mpr ⟨hg, hid⟩]
      dsimp only
      rw [hc.arity _ hg, if_pos hslot]
    | taken hsource hne hg hid hd =>
      have hdriver := Gate.driver?_eq_some.mpr hd
      rw [if_neg (hthere hsource), if_neg hne, hc.gate?_eq_some.mpr ⟨hg, hid⟩]
      dsimp only
      rw [if_neg (Gate.driver?_lt hdriver).not_ge, hdriver]
      rfl

theorem WellFormed.connectsExactly (hc : c.WellFormed) (source target : GateId) (slot : Nat) :
    c.ConnectsExactly source target slot where
  accepted := by
    simp only [connect_eq_ok_iff, Gate.slots_eq_some_none, hc.gate?_eq_some]
    constructor
    · rintro ⟨-, hs, hne, ⟨g, ⟨hg, hid⟩, hlt, hd⟩, -⟩
      exact ⟨hs, hne, g, hg, hid, hc.arity g hg ▸ hlt, hlt, hd⟩
    · rintro ⟨hs, hne, g, hg, hid, -, hlt, hd⟩
      exact ⟨_, hs, hne, ⟨g, ⟨hg, hid⟩, hlt, hd⟩, rfl⟩
  refused e := hc.connect_eq_error_iff
  unchanged e h := by
    rw [run_connectInPlace, Edit.apply, h]
    rfl
  connected d h := by
    refine ⟨?_, ?_, connect_disconnect? hc h⟩
    · rw [run_connectInPlace, Edit.apply, h]
      rfl
    obtain ⟨-, -, ⟨g, hg, hlt, -⟩, rfl⟩ := connect_eq_ok_iff.mp h
    obtain ⟨hmem, rfl⟩ := hc.gate?_eq_some.mp hg
    exact gainsWire_attach hc hmem hlt source

theorem WellFormed.disconnectsExactly (hc : c.WellFormed) (target : GateId) (slot : Nat) :
    c.DisconnectsExactly target slot where
  found := by
    constructor
    · rintro ⟨w, d, h⟩
      obtain ⟨hw, hentry, -⟩ := hc.disconnect?_eq_some_iff.mp h
      obtain ⟨g, hg, hid, hs⟩ := hc.content hw
      simp only [Wire.entry, Prod.mk.injEq] at hentry
      obtain ⟨rfl, rfl⟩ := hentry
      exact ⟨g, hg, hid, hc.arity g hg ▸ (List.getElem?_eq_some_iff.mp hs).1, w.source, hs⟩
    · rintro ⟨g, hg, rfl, -, source, hs⟩
      obtain ⟨w, hw, -, he⟩ := hc.exists_wire_of_driver? hg (Gate.driver?_eq_some.mpr hs)
      exact ⟨w, _, hc.disconnect?_eq_some_iff.mpr ⟨hw, he, rfl⟩⟩
  unchanged h := by
    rw [run_disconnectInPlace, Edit.apply, h]
    rfl
  disconnected w d h := by
    have hrun : (disconnectInPlace target slot).run c = (some w, d) := by
      rw [run_disconnectInPlace, Edit.apply, h]
      rfl
    have hentry := (hc.disconnect?_eq_some_iff.mp h).2.1
    have hrestored := disconnect?_connect hc h
    simp only [Wire.entry, Prod.mk.injEq] at hentry
    obtain ⟨rfl, rfl⟩ := hentry
    exact ⟨hrun, rfl, hrestored⟩

theorem WellFormed.removesExactly (hc : c.WellFormed) (id : GateId) : c.RemovesExactly id where
  missing hid := by
    have hnone : c.removeGate? id = none := by
      rw [removeGate?, if_neg (mt contains_iff.mp hid)]
    refine ⟨hnone, ?_⟩
    rw [run_removeInPlace hc, Edit.apply, hnone]
    rfl
  removed hid ws hws := by
    have hdrop := removeGate?_eq_dropGate hc hws hid
    refine ⟨c.without (ws.map Wire.entry),
      disconnectAll?_eq hc (fun _ hw => ((mem_of_perm_wiresAt hws).mp hw).1)
        (hws.nodup_iff.mpr (hc.nodup_wires.filter _)),
      isolated_without hc hws hid, hdrop, rfl, ?_⟩
    rw [run_removeInPlace hc, Edit.apply, hdrop]
    rfl

/-- Each of the three edits of the wiring succeeds exactly where it should, changes nothing else,
and cancels with those that undo it. A connection is refused for the first thing that is wrong with
it. -/
theorem wiring_exact (hc : c.WellFormed) :
    (∀ source target slot, c.ConnectsExactly source target slot) ∧
      (∀ target slot, c.DisconnectsExactly target slot) ∧ ∀ id, c.RemovesExactly id :=
  ⟨hc.connectsExactly, hc.disconnectsExactly, hc.removesExactly⟩

/-- One gate fills both slots of another one, which drives it in turn, and the propagation has gone
through the wire beside them. -/
def fedTwice : Circuit :=
  [Edit.addGate (.var 'a') {}, .addGate .not {}, .addGate (.binary .and) {}, .addGate .not {},
    .connect 0 1 0, .connect 3 2 0, .connect 3 2 1, .connect 2 3 0, .advance .idle,
    .advance ⟨some 0⟩].foldl Edit.apply empty

theorem wiring_exact_fedTwice :
    fedTwice.WellFormed ∧
      (∃ d before behind, fedTwice.disconnect? 1 0 = some (⟨0, 1, 0, true⟩, d) ∧
        fedTwice.wires = before ++ ⟨0, 1, 0, true⟩ :: behind ∧
        d.connect 0 1 0 =
          .ok { fedTwice with wires := before ++ behind ++ [⟨0, 1, 0, false⟩] }) ∧
      ∃ d, fedTwice.disconnectAll? [(2, 1), (3, 0), (2, 0)] =
          some ([⟨3, 2, 1, false⟩, ⟨2, 3, 0, false⟩, ⟨3, 2, 0, false⟩], d) ∧
        d.Isolated 3 ∧ fedTwice.removeGate? 3 = some (d.dropGate 3) := by
  have hr : fedTwice.Reachable := Reachable.empty.edits
    ⟨(by decide : 0 < idBound), (by decide : 1 < idBound), (by decide : 2 < idBound),
      (by decide : 3 < idBound), trivial, trivial, trivial, trivial, trivial, trivial, trivial⟩
  obtain ⟨-, hdisconnect, hremove⟩ := wiring_exact hr.wellFormed
  refine ⟨hr.wellFormed, ?_, ?_⟩
  · obtain ⟨d, hd⟩ : ∃ d, fedTwice.disconnect? 1 0 = some (⟨0, 1, 0, true⟩, d) := ⟨_, rfl⟩
    obtain ⟨-, -, before, behind, hwires, -, hconnect⟩ := (hdisconnect 1 0).disconnected _ d hd
    exact ⟨d, before, behind, hd, hwires, hconnect⟩
  · obtain ⟨d, hd, hisolated, hremoved, -⟩ := (hremove 3).removed (by decide)
      [⟨3, 2, 1, false⟩, ⟨2, 3, 0, false⟩, ⟨3, 2, 0, false⟩] (by decide)
    exact ⟨d, hd, hisolated, hremoved⟩

end Circuit

end LogicCircuit
