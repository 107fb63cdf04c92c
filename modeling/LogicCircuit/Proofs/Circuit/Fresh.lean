import LogicCircuit.Proofs.Circuit.Representation

/-!
# New identifiers are fresh

The next identifier of a circuit is above all that were ever given out or brought in from outside,
and no edit lowers it, short of clearing the circuit. So an identifier that is given out in order
was never in use before. After the last one in order, the smallest number is taken that no gate has
at the moment. It may have been the identifier of a gate that is gone, but removing that gate has
emptied every slot it filled and taken all its wires away.

Results:
* `isLeast_freeId`: the smallest free identifier.
* `nextId_le_apply`, `seen_lt_nextId`: what the next identifier is above.
* `addGate_fresh`: what is new about a gate that is added.
-/

namespace LogicCircuit.Circuit

variable {c : Circuit}

/-! ## The smallest free identifier -/

/-- Every number that is passed over is an identifier. -/
theorem mem_of_lt_freeIdFrom {n i : Nat} {l : List Gate} (hn : n ≤ i) (h : i < freeIdFrom n l) :
    i ∈ l.map (·.id) := by
  induction l generalizing n with
  | nil => exact absurd h (Nat.not_lt.mpr hn)
  | cons g l ih =>
    unfold freeIdFrom at h
    split_ifs at h with hg
    · rw [List.map_cons, List.mem_cons]
      rcases hn.eq_or_lt with rfl | hlt
      · exact Or.inl hg.symm
      · exact Or.inr (ih hlt h)
    · exact absurd h (Nat.not_lt.mpr hn)

theorem isLeast_freeId (hc : c.WellFormed) : IsLeast {id | id ∉ c.ids} c.freeId := by
  refine ⟨freeIdFrom_notMem hc.ascending fun g _ => Nat.zero_le g.id, fun i hi => ?_⟩
  by_contra hlt
  exact hi (mem_of_lt_freeIdFrom (Nat.zero_le i) (Nat.not_le.mp hlt))

/-! ## The next identifier -/

theorem nextId_of_skeleton {d : Circuit} (h : d.skeleton = c.skeleton) : d.nextId = c.nextId :=
  congrArg (·.2.2) h

/-- No edit but clearing the circuit lowers the next identifier. -/
theorem nextId_le_apply (hc : c.WellFormed) {e : Edit} (he : e.Allowed c) (hclear : e ≠ .clear) :
    c.nextId ≤ (e.apply c).nextId := by
  cases e with
  | addGate kind position => exact (hc.allocate_spec he).2.2.1
  | connect source target slot =>
    rw [Edit.apply]
    split
    · obtain ⟨-, -, -, rfl⟩ := connect_eq_ok_iff.mp ‹_›
      exact le_rfl
    · exact le_rfl
  | disconnect target slot =>
    rw [Edit.apply, disconnect?, Option.map_map]
    cases c.wires.find? (·.enters target slot) <;> exact le_rfl
  | removeGate id =>
    rw [Edit.apply, removeGate?]
    split_ifs <;> exact le_rfl
  | moveGate id position =>
    rw [Edit.apply, moveGate?]
    split_ifs <;> exact le_rfl
  | clear => exact absurd rfl hclear
  | setInput letter value => exact le_rfl
  | setInputs s => exact le_rfl
  | resetInputs => exact le_rfl
  | applyValues value => exact le_rfl
  | clearActivity => exact le_rfl
  | tabulate limits => exact (nextId_of_skeleton (c.skeleton_tabulate limits)).ge
  | advance propagation => exact (nextId_of_skeleton (c.skeleton_advance propagation)).ge

theorem nextId_le_foldl (hc : c.WellFormed) {es : List Edit} (he : Edit.AllAllowed c es)
    (hclear : ∀ e ∈ es, e ≠ .clear) : c.nextId ≤ (es.foldl Edit.apply c).nextId := by
  induction es generalizing c with
  | nil => exact le_rfl
  | cons e es ih =>
    rw [List.forall_mem_cons] at hclear
    exact (nextId_le_apply hc he.1 hclear.1).trans (ih (hc.edit he.1) he.2 hclear.2)

/-! ## Identifiers that have been in use -/

/-- The identifier that an edit gives out. -/
def Edit.given? (c : Circuit) : Edit → Option GateId
  | addGate kind position => some (c.addGate kind position).1
  | _ => none

/-- All identifiers that gates have had or that were given out, from the start of a history to its
end. Building and loading a circuit removes no gate, so those that came up in it are there at the
start. -/
def Edit.seen (c : Circuit) : List Edit → List GateId
  | [] => c.ids
  | e :: rest => c.ids ++ (e.given? c).toList ++ seen (e.apply c) rest

theorem given?_lt_nextId (hc : c.WellFormed) {e : Edit} (he : e.Allowed c) {id : GateId}
    (h : e.given? c = some id) : id < (e.apply c).nextId := by
  cases e with
  | addGate kind position =>
    cases h
    exact (hc.allocate_spec he).2.1
  | _ => cases h

/-- Whatever has been in use is below the next identifier. -/
theorem seen_lt_nextId (hc : c.WellFormed) {es : List Edit} (he : Edit.AllAllowed c es)
    (hclear : ∀ e ∈ es, e ≠ .clear) :
    ∀ id ∈ Edit.seen c es, id < (es.foldl Edit.apply c).nextId := by
  induction es generalizing c with
  | nil => exact fun id hid => hc.lt_nextId hid
  | cons e es ih =>
    have hd := hc.edit he.1
    have hrest : ∀ a ∈ es, a ≠ .clear := fun a ha => hclear a (List.mem_cons_of_mem e ha)
    have hlast := nextId_le_foldl hd he.2 hrest
    have hnext := nextId_le_apply hc he.1 (hclear e List.mem_cons_self)
    -- it was there before the edit, was given out by it, or came up later
    intro id hid
    rw [Edit.seen, List.mem_append, List.mem_append] at hid
    rcases hid with (hid | hid) | hid
    · exact (hc.lt_nextId hid).trans_le (hnext.trans hlast)
    · exact (given?_lt_nextId hc he.1 (Option.mem_toList.mp hid)).trans_le hlast
    · exact ih hd he.2 hrest id hid

/-! ## Adding a gate -/

/-- What adding a gate to a circuit comes to, given the identifiers that have been in use. -/
structure AddsFresh (c : Circuit) (seen : List GateId) (kind : GateKind) (position : Position)
    (id : GateId) (d : Circuit) : Prop where
  /-- No gate has the identifier, no slot holds it, and no wire ends at it. -/
  unused : id ∉ c.ids
  slots : ∀ g ∈ c.gates, some id ∉ g.slots
  wires : ∀ w ∈ c.wires, w.source ≠ id ∧ w.target ≠ id
  /-- One gate is added, with empty slots, and no wire. -/
  gates : d.gates.Perm (.fresh id kind.normalized position :: c.gates)
  sameWires : d.wires = c.wires
  /-- It is an output, and nothing drives it. -/
  isolated : id ∈ d.sinks ∧ d.fanin id = [] ∧ d.fanout id = []
  /-- The gates are sorted before and after. -/
  ascending : c.ids.Pairwise (· < ·) ∧ d.ids.Pairwise (· < ·)
  /-- As long as there is an identifier left in order, it is taken, and was never in use. -/
  inOrder : c.nextId < idBound → id = c.nextId ∧ ∀ i ∈ seen, i < id
  /-- After that, the smallest number is taken that no gate has. -/
  smallest : c.nextId = idBound → IsLeast {i | i ∉ c.ids} id

/-- Neither a slot nor a wire mentions an identifier that no gate has. -/
theorem WellFormed.not_mentioned (hc : c.WellFormed) {id : GateId} (hid : id ∉ c.ids) :
    (∀ g ∈ c.gates, some id ∉ g.slots) ∧ ∀ w ∈ c.wires, w.source ≠ id ∧ w.target ≠ id := by
  refine ⟨fun g hg hmem => hid (hc.input_mem hg ?_), fun w hw => ⟨?_, ?_⟩⟩
  · exact List.mem_filterMap.mpr ⟨some id, hmem, rfl⟩
  · rintro rfl
    exact hid (hc.sourced w hw)
  · rintro rfl
    exact hid (hc.target_mem hw)

theorem addsFresh_of_wellFormed (hc : c.WellFormed) (hn : c.gates.length < idBound)
    {seen : List GateId} (hseen : ∀ id ∈ seen, id < c.nextId) (kind : GateKind)
    (position : Position) :
    c.AddsFresh seen kind position (c.addGate kind position).1 (c.addGate kind position).2 := by
  have hid : (c.addGate kind position).1 ∉ c.ids := (hc.allocate_spec hn).1
  obtain ⟨hslots, hwires⟩ := hc.not_mentioned hid
  have hd := hc.addGate hn kind position
  have hmem : (c.addGate kind position).1 ∈ (c.addGate kind position).2.ids :=
    List.mem_map_of_mem (mem_insertGate.mpr (Or.inl rfl))
  refine ⟨hid, hslots, hwires, insertGate_perm _ _, rfl, ⟨?_, ?_, ?_⟩,
    ⟨hc.ascending, hd.ascending⟩, fun hlt => ?_, fun heq => ?_⟩
  · exact mem_sinks.mpr ⟨hmem, fun w hw => (hwires w hw).1⟩
  · exact List.filter_eq_nil_iff.mpr fun w hw => by simpa using (hwires w hw).2
  · exact List.filter_eq_nil_iff.mpr fun w hw => by simpa using (hwires w hw).1
  · have hnext : (c.addGate kind position).1 = c.nextId := by
      unfold Circuit.addGate allocate
      rw [if_pos hlt]
    exact ⟨hnext, fun i hi => hnext ▸ hseen i hi⟩
  · have hfree : (c.addGate kind position).1 = c.freeId := by
      unfold Circuit.addGate allocate
      rw [if_neg heq.not_lt]
    exact hfree ▸ isLeast_freeId hc

/-- Whatever has been done to a circuit since it was started, built or loaded, short of clearing
it, a gate that is added gets an identifier of its own. -/
theorem addGate_fresh {start : Circuit} (hs : start.Reachable) {es : List Edit}
    (he : Edit.AllAllowed start es) (hclear : ∀ e ∈ es, e ≠ .clear)
    (hn : (es.foldl Edit.apply start).gates.length < idBound) (kind : GateKind)
    (position : Position) :
    (es.foldl Edit.apply start).AddsFresh (Edit.seen start es) kind position
      ((es.foldl Edit.apply start).addGate kind position).1
      ((es.foldl Edit.apply start).addGate kind position).2 :=
  addsFresh_of_wellFormed (hs.edits he).wellFormed hn (seen_lt_nextId hs.wellFormed he hclear) kind
    position

/-- The last gate is removed. -/
def lastRemoved : List Edit :=
  [.addGate (.var 'a') {}, .addGate .not {}, .connect 0 1 0, .removeGate 1]

/-- The first of two gates is removed, which was joined to both others. -/
def firstRemoved : List Edit :=
  [.addGate .not {}, .connect 4294967294 0 0, .addGate (.binary .xor) {}, .connect 0 1 1,
    .removeGate 0]

/-- An identifier is not given out again while there are others in order, but it is after the last
one. -/
theorem addGate_fresh_removed :
    (empty.Reachable ∧ Edit.AllAllowed empty lastRemoved ∧ (∀ e ∈ lastRemoved, e ≠ .clear) ∧
      (lastRemoved.foldl Edit.apply empty).AddsFresh (Edit.seen empty lastRemoved) .not {} 2
        ((lastRemoved.foldl Edit.apply empty).addGate .not {}).2 ∧
      1 ∈ Edit.seen empty lastRemoved) ∧
    exhausted.Reachable ∧ Edit.AllAllowed exhausted firstRemoved ∧
      (∀ e ∈ firstRemoved, e ≠ .clear) ∧
      (firstRemoved.foldl Edit.apply exhausted).AddsFresh (Edit.seen exhausted firstRemoved) .not {}
        0 ((firstRemoved.foldl Edit.apply exhausted).addGate .not {}).2 ∧
      0 ∈ Edit.seen exhausted firstRemoved := by
  have hload : greatestId.circuit = .ok exhausted := by decide
  have hlast : Edit.AllAllowed empty lastRemoved :=
    ⟨(by decide : 0 < idBound), (by decide : 1 < idBound), trivial, trivial, trivial⟩
  have hfirst : Edit.AllAllowed exhausted firstRemoved :=
    ⟨(by decide : 1 < idBound), trivial, (by decide : 2 < idBound), trivial, trivial, trivial⟩
  have hc₁ : ∀ e ∈ lastRemoved, e ≠ .clear := by simp [lastRemoved]
  have hc₂ : ∀ e ∈ firstRemoved, e ≠ .clear := by simp [firstRemoved]
  exact ⟨⟨.empty, hlast, hc₁,
      addGate_fresh .empty hlast hc₁ (by decide : 1 < idBound) .not {}, by decide⟩,
    .loaded hload, hfirst, hc₂,
    addGate_fresh (.loaded hload) hfirst hc₂ (by decide : 2 < idBound) .not {}, by decide⟩

end LogicCircuit.Circuit
