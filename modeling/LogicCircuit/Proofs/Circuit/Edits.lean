import LogicCircuit.Proofs.Circuit.WellFormed

/-!
# Edits keep circuits well formed

Each operation that changes gates, slots or wires keeps `Circuit.WellFormed`, whatever its
arguments. A gate may only be added while fewer gates than identifiers are present: after the last
identifier has been given out, the smallest free one is taken.

Results:
* `WellFormed.addGate`, `WellFormed.addGateAs`: a new gate gets an identifier of its own.
* `connect_eq_ok_iff`, `WellFormed.connect`: what a wire needs to be accepted, and what it changes.
* `WellFormed.disconnect`, `WellFormed.removeGate`: no slot is left without its wire, and no wire
  without its slot.
-/

namespace LogicCircuit

theorem GateKind.normalized_normalized (k : GateKind) : k.normalized.normalized = k.normalized := by
  cases k with
  | var letter => simp [GateKind.normalized]
  | const b => rfl
  | not => rfl
  | binary op => rfl

theorem Wire.enters_iff {w : Wire} {target : GateId} {slot : Nat} :
    w.enters target slot = true ↔ (w.target, w.slot) = (target, slot) := by
  simp [Wire.enters]

namespace Circuit

/-! ## Inserting gates -/

theorem insertGate_perm (g : Gate) (l : List Gate) : (insertGate g l).Perm (g :: l) := by
  induction l with
  | nil => exact .rfl
  | cons a l ih =>
    unfold insertGate
    split_ifs
    · exact (ih.cons a).trans (.swap g a l)
    · exact .rfl

theorem mem_insertGate {g h : Gate} {l : List Gate} : h ∈ insertGate g l ↔ h = g ∨ h ∈ l :=
  (insertGate_perm g l).mem_iff.trans List.mem_cons

theorem length_insertGate (g : Gate) (l : List Gate) : (insertGate g l).length = l.length + 1 :=
  (insertGate_perm g l).length_eq

/-- A gate whose identifier is above all others comes last. -/
theorem insertGate_eq_append {g : Gate} {l : List Gate} (h : ∀ a ∈ l, a.id < g.id) :
    insertGate g l = l ++ [g] := by
  induction l with
  | nil => rfl
  | cons a l ih =>
    unfold insertGate
    rw [if_pos (h a List.mem_cons_self), ih fun b hb => h b (List.mem_cons_of_mem _ hb)]
    rfl

theorem ascending_insertGate {g : Gate} {l : List Gate} (hl : (l.map (·.id)).Pairwise (· < ·))
    (hg : g.id ∉ l.map (·.id)) : ((insertGate g l).map (·.id)).Pairwise (· < ·) := by
  induction l with
  | nil => simp [insertGate]
  | cons a l ih =>
    simp only [List.map_cons, List.pairwise_cons, List.mem_cons, not_or] at hl hg
    unfold insertGate
    split_ifs with h
    · simp only [List.map_cons, List.pairwise_cons]
      refine ⟨fun id hid => ?_, ih hl.2 hg.2⟩
      obtain ⟨b, hb, rfl⟩ := List.mem_map.mp hid
      rcases mem_insertGate.mp hb with rfl | hb
      · exact h
      · exact hl.1 _ (List.mem_map_of_mem hb)
    · simp only [List.map_cons, List.pairwise_cons, List.mem_cons]
      refine ⟨fun id hid => ?_, hl⟩
      rcases hid with rfl | hid
      · lia
      · have := hl.1 id hid
        lia

/-! ## Identifiers -/

theorem le_freeIdFrom (n : Nat) (l : List Gate) : n ≤ freeIdFrom n l := by
  induction l generalizing n with
  | nil => exact le_rfl
  | cons g l ih =>
    unfold freeIdFrom
    split_ifs
    · exact le_trans (by lia) (ih (n + 1))
    · exact le_rfl

theorem freeIdFrom_le (n : Nat) (l : List Gate) : freeIdFrom n l ≤ n + l.length := by
  induction l generalizing n with
  | nil => exact le_rfl
  | cons g l ih =>
    unfold freeIdFrom
    split_ifs
    · have := ih (n + 1)
      rw [List.length_cons]
      lia
    · lia

theorem freeIdFrom_notMem {n : Nat} {l : List Gate} (hl : (l.map (·.id)).Pairwise (· < ·))
    (hn : ∀ g ∈ l, n ≤ g.id) : freeIdFrom n l ∉ l.map (·.id) := by
  induction l generalizing n with
  | nil => simp
  | cons g l ih =>
    simp only [List.map_cons, List.pairwise_cons] at hl
    have hlt : ∀ a ∈ l, g.id < a.id := fun a ha => hl.1 _ (List.mem_map_of_mem ha)
    have hg := hn g List.mem_cons_self
    simp only [List.map_cons, List.mem_cons, not_or]
    unfold freeIdFrom
    split_ifs with h
    · refine ⟨?_, ih hl.2 fun a ha => by have := hlt a ha; lia⟩
      have := le_freeIdFrom (n + 1) l
      lia
    · refine ⟨by lia, fun hmem => ?_⟩
      obtain ⟨a, ha, rfl⟩ := List.mem_map.mp hmem
      have := hlt a ha
      lia

namespace WellFormed

variable {c : Circuit}

/-- The identifier of a new gate is not in use, and below the next one. -/
theorem allocate_spec (hc : c.WellFormed) (hn : c.gates.length < idBound) :
    c.allocate.1 ∉ c.ids ∧ c.allocate.1 < c.allocate.2 ∧ c.nextId ≤ c.allocate.2 ∧
      c.allocate.2 ≤ idBound := by
  have hb := hc.bounded
  unfold allocate
  split_ifs with h
  · exact ⟨fun hmem => lt_irrefl _ (hc.lt_nextId hmem), by lia, by lia, by lia⟩
  · have hle := freeIdFrom_le 0 c.gates
    refine ⟨freeIdFrom_notMem hc.ascending fun g _ => Nat.zero_le g.id, ?_, le_rfl, hb⟩
    show freeIdFrom 0 c.gates < c.nextId
    lia

/-! ## Adding gates -/

/-- A gate with empty slots and an identifier that is not in use may be put into a circuit. -/
theorem insert (hc : c.WellFormed) {g : Gate} {n : GateId} (hid : g.id ∉ c.ids) (hlt : g.id < n)
    (hle : c.nextId ≤ n) (hb : n ≤ idBound) (ha : g.slots.length = g.kind.arity)
    (hk : g.kind.normalized = g.kind) (he : ∀ slot, g.driver? slot = none) :
    WellFormed { c with gates := insertGate g c.gates, nextId := n } := by
  have hids : ∀ id, id ∈ c.ids → id ∈ (insertGate g c.gates).map (·.id) := by
    intro id hmem
    obtain ⟨h, hh, rfl⟩ := mem_ids.mp hmem
    exact List.mem_map_of_mem (mem_insertGate.mpr (Or.inr hh))
  refine ⟨ascending_insertGate hc.ascending hid, ?_, hb, ?_, ?_, hc.single, ?_, ?_, hc.proper⟩
  · intro h hh
    rcases mem_insertGate.mp hh with rfl | hh
    · exact hlt
    · exact lt_of_lt_of_le (hc.below h hh) hle
  · intro h hh
    rcases mem_insertGate.mp hh with rfl | hh
    · exact ha
    · exact hc.arity h hh
  · intro h hh
    rcases mem_insertGate.mp hh with rfl | hh
    · exact hk
    · exact hc.normalized h hh
  · intro source target slot
    rw [hc.wired]
    constructor
    · rintro ⟨h, hh, hd⟩
      exact ⟨h, mem_insertGate.mpr (Or.inr hh), hd⟩
    · rintro ⟨h, hh, hd⟩
      rcases mem_insertGate.mp hh with rfl | hh
      · rw [he] at hd
        exact absurd hd.2 (by simp)
      · exact ⟨h, hh, hd⟩
  · intro w hw
    exact hids _ (hc.sourced w hw)

theorem addGate (hc : c.WellFormed) (hn : c.gates.length < idBound) (kind : GateKind)
    (position : Position) : (c.addGate kind position).2.WellFormed := by
  obtain ⟨hid, hlt, hle, hb⟩ := hc.allocate_spec hn
  refine hc.insert (g := .fresh c.allocate.1 kind.normalized position) hid hlt hle hb ?_ ?_ ?_
  · simp [Gate.fresh]
  · exact kind.normalized_normalized
  · exact Gate.driver?_fresh _ _ _

theorem addGateAs (hc : c.WellFormed) {g : Gate} {d : Circuit} (h : c.addGateAs g = .ok d)
    (ha : g.slots.length = g.kind.arity) (he : ∀ slot, g.driver? slot = none) : d.WellFormed := by
  unfold Circuit.addGateAs at h
  split_ifs at h with h1 h2
  cases h
  rw [contains_iff] at h2
  refine hc.insert (g := { g with kind := g.kind.normalized }) h2 ?_ ?_ ?_ ?_ ?_ he
  · exact lt_of_lt_of_le (Nat.lt_succ_self g.id) (le_max_right _ _)
  · exact le_max_left _ _
  · exact max_le hc.bounded (Nat.lt_of_not_le h1)
  · simpa using ha
  · exact g.kind.normalized_normalized

/-! ## Wires -/

theorem ids_setSlot (target : GateId) (slot : Nat) (driver : Option GateId) :
    (c.setSlot target slot driver).ids = c.ids := by
  unfold setSlot modifyGate mapGates ids
  rw [List.map_map]
  refine List.map_congr_left fun g _ => ?_
  simp only [Function.comp_apply]
  split_ifs <;> rfl

theorem mem_setSlot {target : GateId} {slot : Nat} {driver : Option GateId} {h : Gate} :
    h ∈ (c.setSlot target slot driver).gates ↔ ∃ g ∈ c.gates,
      (if g.id = target then { g with slots := g.slots.set slot driver } else g) = h :=
  List.mem_map

/-- Setting one slot of a gate changes what fills that slot and no other. -/
theorem exists_driver_setSlot (hc : c.WellFormed) {g : Gate} (hg : g ∈ c.gates) {slot : Nat}
    (hs : slot < g.slots.length) (driver : Option GateId) (source target : GateId) (i : Nat) :
    (∃ h ∈ (c.setSlot g.id slot driver).gates, h.id = target ∧ h.driver? i = some source) ↔
      if target = g.id ∧ i = slot then driver = some source
      else ∃ h ∈ c.gates, h.id = target ∧ h.driver? i = some source := by
  constructor
  · rintro ⟨h', hmem, hid, hd⟩
    obtain ⟨h, hh, rfl⟩ := mem_setSlot.mp hmem
    by_cases he : h.id = g.id
    · obtain rfl := hc.eq_of_id_eq hh hg he
      simp only [if_true] at hid hd
      rw [Gate.driver?_set h slot driver hs] at hd
      by_cases hi : i = slot
      · rw [if_pos ⟨hid.symm, hi⟩]
        rwa [if_pos hi] at hd
      · rw [if_neg fun hp => hi hp.2]
        rw [if_neg hi] at hd
        exact ⟨h, hh, hid, hd⟩
    · rw [if_neg he] at hid hd
      rw [if_neg fun hp => he (hid.trans hp.1)]
      exact ⟨h, hh, hid, hd⟩
  · intro hd
    by_cases hp : target = g.id ∧ i = slot
    · rw [if_pos hp] at hd
      obtain ⟨rfl, rfl⟩ := hp
      refine ⟨_, mem_setSlot.mpr ⟨g, hg, rfl⟩, by simp, ?_⟩
      rw [if_pos rfl, Gate.driver?_set g i driver hs, if_pos rfl, hd]
    · rw [if_neg hp] at hd
      obtain ⟨h, hh, hid, hd⟩ := hd
      refine ⟨_, mem_setSlot.mpr ⟨h, hh, rfl⟩, ?_, ?_⟩
      · split_ifs <;> exact hid
      · split_ifs with he
        · obtain rfl := hc.eq_of_id_eq hh hg he
          rw [Gate.driver?_set h slot driver hs, if_neg fun hi => hp ⟨hid.symm, hi⟩, hd]
        · exact hd

/-- A slot may be set together with the wires, as long as the two still agree. -/
theorem rewire (hc : c.WellFormed) (target : GateId) (slot : Nat) (driver : Option GateId)
    {wires : List Wire} (h1 : (wires.map fun w => (w.target, w.slot)).Nodup)
    (h2 : ∀ source t i, (source, t, i) ∈ wires.map Wire.ends ↔
      ∃ h ∈ (c.setSlot target slot driver).gates, h.id = t ∧ h.driver? i = some source)
    (h3 : ∀ w ∈ wires, w.source ∈ c.ids) (h4 : ∀ w ∈ wires, w.source ≠ w.target) :
    WellFormed { c.setSlot target slot driver with wires } := by
  have hframe : ∀ h ∈ (c.setSlot target slot driver).gates, ∃ g ∈ c.gates,
      g.id = h.id ∧ g.kind = h.kind ∧ g.slots.length = h.slots.length := by
    intro h hh
    obtain ⟨g, hg, rfl⟩ := mem_setSlot.mp hh
    refine ⟨g, hg, ?_⟩
    split_ifs <;> simp
  have hids : ids { c.setSlot target slot driver with wires } = c.ids :=
    ids_setSlot target slot driver
  refine ⟨hids ▸ hc.ascending, ?_, hc.bounded, ?_, ?_, h1, h2, hids ▸ h3, h4⟩
  · intro h hh
    obtain ⟨g, hg, hid, -, -⟩ := hframe h hh
    exact hid ▸ hc.below g hg
  · intro h hh
    obtain ⟨g, hg, -, hk, hl⟩ := hframe h hh
    rw [← hk, ← hl]
    exact hc.arity g hg
  · intro h hh
    obtain ⟨g, hg, -, hk, -⟩ := hframe h hh
    rw [← hk]
    exact hc.normalized g hg

end WellFormed

/-- What a wire needs to be accepted, and what it changes. -/
theorem connect_eq_ok_iff {c d : Circuit} {source target : GateId} {slot : Nat} :
    c.connect source target slot = .ok d ↔ source ∈ c.ids ∧ source ≠ target ∧
      (∃ g, c.gate? target = some g ∧ slot < g.slots.length ∧ g.driver? slot = none) ∧
      d = c.attach source target slot := by
  unfold connect
  by_cases hs : source ∈ c.ids
  · rw [if_neg (by simp [contains_iff.mpr hs])]
    by_cases he : source = target
    · rw [if_pos he]
      simp [he]
    · rw [if_neg he]
      cases hg : c.gate? target with
      | none => simp
      | some g =>
        simp only
        split_ifs with h1 h2
        · simp only [false_iff]
          rintro ⟨-, -, ⟨g', hg', hlt, -⟩, -⟩
          cases hg'
          omega
        · simp only [false_iff]
          rintro ⟨-, -, ⟨g', hg', -, hd⟩, -⟩
          cases hg'
          rw [hd] at h2
          cases h2
        · rw [Bool.not_eq_true, Option.isSome_eq_false_iff, Option.isNone_iff_eq_none] at h2
          rw [Except.ok.injEq]
          constructor
          · rintro rfl
            exact ⟨hs, he, ⟨g, rfl, by omega, h2⟩, rfl⟩
          · rintro ⟨-, -, -, rfl⟩
            rfl
  · rw [if_pos (by simp [Bool.eq_false_iff.mpr (mt contains_iff.mp hs)])]
    simp [hs]

theorem WellFormed.connect {c d : Circuit} (hc : c.WellFormed) {source target : GateId}
    {slot : Nat} (h : c.connect source target slot = .ok d) : d.WellFormed := by
  obtain ⟨hs, hne, ⟨g, hg, hlt, hfree⟩, rfl⟩ := connect_eq_ok_iff.mp h
  obtain ⟨hmem, rfl⟩ := hc.gate?_eq_some.mp hg
  have hnew : ∀ source' : GateId, (source', g.id, slot) ∉ c.wires.map Wire.ends := by
    intro source' he
    obtain ⟨h, hh, hid, hd⟩ := (hc.wired _ _ _).mp he
    obtain rfl := hc.eq_of_id_eq hh hmem hid
    rw [hfree] at hd
    cases hd
  refine hc.rewire g.id slot (some source) ?_ ?_ ?_ ?_
  · rw [List.map_append, List.nodup_append]
    refine ⟨hc.single, by simp, ?_⟩
    intro e he e' he' heq
    obtain ⟨w, hw, rfl⟩ := List.mem_map.mp he
    simp only [List.map_cons, List.map_nil, List.mem_singleton] at he'
    subst he'
    simp only [Prod.mk.injEq] at heq
    exact hnew w.source (List.mem_map.mpr ⟨w, hw, by simp [Wire.ends, heq]⟩)
  · intro source' t i
    rw [hc.exists_driver_setSlot hmem hlt, List.map_append, List.mem_append, hc.wired]
    simp only [List.map_cons, List.map_nil, List.mem_singleton, Wire.ends, Prod.mk.injEq]
    split_ifs with hp
    · obtain ⟨rfl, rfl⟩ := hp
      have hno := mt (hc.wired source' g.id i).mpr (hnew source')
      rw [or_iff_right hno, Option.some.injEq]
      exact ⟨fun hn => hn.1.symm, fun hn => ⟨hn.symm, rfl, rfl⟩⟩
    · exact or_iff_left fun hn => hp hn.2
  · intro w hw
    rcases List.mem_append.mp hw with hw | hw
    · exact hc.sourced w hw
    · obtain rfl := List.mem_singleton.mp hw
      exact hs
  · intro w hw
    rcases List.mem_append.mp hw with hw | hw
    · exact hc.proper w hw
    · obtain rfl := List.mem_singleton.mp hw
      exact hne

/-! ## Taking wires and gates away -/

/-- Where the keys are distinct, taking away the first element with a key takes away all of them. -/
theorem eraseP_eq_filter {α β : Type} {key : α → β} {l : List α} (h : (l.map key).Nodup) {k : β}
    {p : α → Bool} (hp : ∀ a, p a = true ↔ key a = k) : l.eraseP p = l.filter (!p ·) := by
  induction l with
  | nil => rfl
  | cons a l ih =>
    simp only [List.map_cons, List.nodup_cons] at h
    by_cases ha : p a = true
    · rw [List.eraseP_cons_of_pos ha, List.filter_cons_of_neg (by simp [ha])]
      symm
      rw [List.filter_eq_self]
      intro b hb
      rw [Bool.not_eq_true', Bool.eq_false_iff]
      intro he
      exact h.1 (List.mem_map.mpr ⟨b, hb, ((hp b).mp he).trans ((hp a).mp ha).symm⟩)
    · rw [List.eraseP_cons_of_neg ha, List.filter_cons_of_pos (by simp [ha]), ih h.2]

theorem WellFormed.disconnect {c d : Circuit} (hc : c.WellFormed) {target : GateId} {slot : Nat}
    {w : Wire} (h : c.disconnect? target slot = some (w, d)) : d.WellFormed := by
  unfold disconnect? at h
  obtain ⟨w', hw', he⟩ := Option.map_eq_some_iff.mp h
  cases he
  have hmem := List.mem_of_find?_eq_some hw'
  have hent := Wire.enters_iff.mp (List.find?_some (p := fun v : Wire => v.enters target slot) hw')
  simp only [Prod.mk.injEq] at hent
  obtain ⟨rfl, rfl⟩ := hent
  obtain ⟨g, hg, hid, hd⟩ := (hc.wired _ _ _).mp (List.mem_map_of_mem (f := Wire.ends) hmem)
  rw [eraseP_eq_filter hc.single fun _ => Wire.enters_iff, ← hid]
  refine hc.rewire g.id w.slot none ?_ ?_ ?_ ?_
  · exact (List.filter_sublist.map _).nodup hc.single
  · intro source t i
    rw [hc.exists_driver_setSlot hg (Gate.driver?_lt hd)]
    have hsub : (source, t, i) ∈ (c.wires.filter (!·.enters g.id w.slot)).map Wire.ends ↔
        (source, t, i) ∈ c.wires.map Wire.ends ∧ ¬ (t = g.id ∧ i = w.slot) := by
      simp only [List.mem_map, List.mem_filter, Bool.not_eq_true', Bool.eq_false_iff, ne_eq,
        Wire.enters_iff, Wire.ends, Prod.mk.injEq]
      constructor
      · rintro ⟨v, ⟨hv, hne⟩, rfl, rfl, rfl⟩
        exact ⟨⟨v, hv, rfl, rfl, rfl⟩, hne⟩
      · rintro ⟨⟨v, hv, rfl, rfl, rfl⟩, hne⟩
        exact ⟨v, ⟨hv, hne⟩, rfl, rfl, rfl⟩
    rw [hsub, hc.wired]
    split_ifs with hp
    · simp [hp]
    · simp [hp]
  · intro v hv
    exact hc.sourced v (List.mem_filter.mp hv).1
  · intro v hv
    exact hc.proper v (List.mem_filter.mp hv).1

theorem WellFormed.removeGate {c d : Circuit} (hc : c.WellFormed) {id : GateId}
    (h : c.removeGate? id = some d) : d.WellFormed := by
  unfold removeGate? at h
  split_ifs at h with hid
  cases h
  have hgate : ∀ g ∈ (c.gates.filter (·.id != id)).map (·.forget id),
      ∃ g' ∈ c.gates, g'.id ≠ id ∧ g = g'.forget id := by
    intro g hg
    obtain ⟨g', hg', rfl⟩ := List.mem_map.mp hg
    rw [List.mem_filter, bne_iff_ne] at hg'
    exact ⟨g', hg'.1, hg'.2, rfl⟩
  have hids : ∀ id', id' ∈ c.ids → id' ≠ id →
      id' ∈ ((c.gates.filter (·.id != id)).map (·.forget id)).map (·.id) := by
    intro id' hmem hne
    obtain ⟨g, hg, rfl⟩ := mem_ids.mp hmem
    exact List.mem_map.mpr ⟨g.forget id, List.mem_map.mpr ⟨g, by simp [hg, hne], rfl⟩, rfl⟩
  refine ⟨?_, ?_, hc.bounded, ?_, ?_, ?_, ?_, ?_, ?_⟩
  · unfold ids
    rw [List.map_map]
    exact hc.ascending.sublist (List.filter_sublist.map _)
  · intro g hg
    obtain ⟨g', hg', -, rfl⟩ := hgate g hg
    exact hc.below g' hg'
  · intro g hg
    obtain ⟨g', hg', -, rfl⟩ := hgate g hg
    rw [Gate.forget, List.length_map]
    exact hc.arity g' hg'
  · intro g hg
    obtain ⟨g', hg', -, rfl⟩ := hgate g hg
    exact hc.normalized g' hg'
  · exact (List.filter_sublist.map _).nodup hc.single
  · intro source target slot
    simp only [List.mem_map, List.mem_filter, Bool.and_eq_true, bne_iff_ne]
    constructor
    · rintro ⟨w, ⟨hw, hs, ht⟩, he⟩
      have hmem := (hc.wired source target slot).mp (List.mem_map.mpr ⟨w, hw, he⟩)
      simp only [Wire.ends, Prod.mk.injEq] at he
      obtain ⟨rfl, rfl, rfl⟩ := he
      obtain ⟨g, hg, hgid, hd⟩ := hmem
      refine ⟨g.forget id, ⟨g, ⟨hg, hgid ▸ ht⟩, rfl⟩, hgid, ?_⟩
      exact (g.driver?_forget id w.slot w.source).mpr ⟨hd, hs⟩
    · rintro ⟨_, ⟨g, ⟨hg, hne⟩, rfl⟩, rfl, hd⟩
      obtain ⟨hd, hs⟩ := (g.driver?_forget id slot source).mp hd
      obtain ⟨w, hw, he⟩ := List.mem_map.mp ((hc.wired source g.id slot).mpr ⟨g, hg, rfl, hd⟩)
      refine ⟨w, ⟨hw, ?_⟩, he⟩
      simp only [Wire.ends, Prod.mk.injEq] at he
      rw [he.1, he.2.1]
      exact ⟨hs, hne⟩
  · intro w hw
    simp only [List.mem_filter, Bool.and_eq_true, bne_iff_ne] at hw
    exact hids _ (hc.sourced w hw.1) hw.2.1
  · intro w hw
    exact hc.proper w (List.mem_filter.mp hw).1

end Circuit

end LogicCircuit
