import LogicCircuit.Proofs.Circuit.Edits
import LogicCircuit.Proofs.Except
import LogicCircuit.Circuit.OfFormula
import LogicCircuit.Propagation
import LogicCircuit.Record.Circuit
import LogicCircuit.TruthTable.Basic

/-!
# Reachable circuits

Circuits come from formulas, from records or from nothing, and are then edited. `Circuit.Reachable`
collects what may arise, `Circuit.Edit` being one operation with its arguments.

Results:
* `skeleton_setInput`, `skeleton_tabulate`, `skeleton_advance` and their like: operations on
  values, marks and positions leave the gates, slots and wires as they are.
* `WellFormed.addFormulas`, `WellFormed.of_record`: the circuits that edits start from.
* `Reachable.wellFormed`: every reachable circuit is well formed.
-/

namespace LogicCircuit

/-! ## Operations that leave the gates, slots and wires as they are -/

namespace Circuit

theorem skeleton_mapGates (c : Circuit) {f : Gate → Gate} (h : ∀ g, (f g).frame = g.frame) :
    (c.mapGates f).skeleton = c.skeleton := by
  unfold skeleton mapGates
  simp only [List.map_map, Prod.mk.injEq, and_true]
  exact List.map_congr_left fun g _ => h g

theorem skeleton_modifyGate (c : Circuit) (id : GateId) {f : Gate → Gate}
    (h : ∀ g, (f g).frame = g.frame) : (c.modifyGate id f).skeleton = c.skeleton := by
  refine c.skeleton_mapGates fun g => ?_
  split_ifs
  · exact h g
  · rfl

theorem skeleton_mapInputs (c : Circuit) (f : Char → Value → Value) :
    (c.mapInputs f).skeleton = c.skeleton := by
  refine c.skeleton_mapGates fun g => ?_
  split <;> rfl

@[simp] theorem skeleton_setInput (c : Circuit) (letter : Char) (value : Value) :
    (c.setInput letter value).skeleton = c.skeleton := c.skeleton_mapInputs _

@[simp] theorem skeleton_setInputs (c : Circuit) (s : Assignment) :
    (c.setInputs s).skeleton = c.skeleton := c.skeleton_mapInputs _

@[simp] theorem skeleton_resetInputs (c : Circuit) : c.resetInputs.skeleton = c.skeleton :=
  c.skeleton_mapInputs _

@[simp] theorem skeleton_applyValues (c : Circuit) (value : GateId → Value) :
    (c.applyValues value).skeleton = c.skeleton := by
  refine c.skeleton_mapGates fun g => ?_
  split <;> rfl

@[simp] theorem skeleton_clearActivity (c : Circuit) : c.clearActivity.skeleton = c.skeleton := by
  unfold skeleton clearActivity
  simp only [List.map_map]
  rfl

@[simp] theorem skeleton_activate (c : Circuit) (id : GateId) :
    (c.activate id).skeleton = c.skeleton := by
  have h := c.skeleton_modifyGate id (f := fun g => { g with active := true }) fun _ => rfl
  simp only [skeleton, Prod.mk.injEq] at h
  unfold skeleton activate
  rw [h.1, List.map_map]
  simp only [Prod.mk.injEq, true_and]
  refine ⟨List.map_congr_left fun w _ => ?_, rfl⟩
  simp only [Function.comp_apply]
  split_ifs <;> rfl

@[simp] theorem skeleton_activateAll (c : Circuit) (ids : List GateId) :
    (c.activateAll ids).skeleton = c.skeleton := by
  unfold activateAll
  induction ids generalizing c with
  | nil => rfl
  | cons id ids ih => rw [List.foldl_cons, ih, skeleton_activate]

theorem skeleton_moveGate {c d : Circuit} {id : GateId} {position : Position}
    (h : c.moveGate? id position = some d) : d.skeleton = c.skeleton := by
  unfold moveGate? at h
  split_ifs at h
  cases h
  exact c.skeleton_modifyGate id fun _ => rfl

@[simp] theorem skeleton_tabulate (c : Circuit) (limits : Limits) :
    (c.tabulate limits).circuit.skeleton = c.skeleton := by
  unfold tabulate
  dsimp only
  split_ifs
  · exact c.skeleton_resetInputs
  · rfl

@[simp] theorem skeleton_advance (c : Circuit) (p : Propagation) :
    (p.advance c).circuit.skeleton = c.skeleton := by
  unfold Propagation.advance
  cases p.step? with
  | none =>
    unfold Propagation.start
    simp
  | some step =>
    unfold Propagation.continueFrom
    dsimp only
    split_ifs
    · rfl
    · split <;> simp

/-! ## Circuits of formulas -/

theorem length_addGate (c : Circuit) (kind : GateKind) (position : Position) :
    (c.addGate kind position).2.gates.length = c.gates.length + 1 := length_insertGate _ _

theorem WellFormed.wire {c : Circuit} (hc : c.WellFormed) (operand gate : GateId) (slot : Nat) :
    (c.wire operand gate slot).WellFormed := by
  unfold Circuit.wire
  split
  · exact hc.connect ‹_›
  · exact hc

theorem length_wire (c : Circuit) (operand gate : GateId) (slot : Nat) :
    (c.wire operand gate slot).gates.length = c.gates.length := by
  unfold wire
  split
  · obtain ⟨-, -, -, rfl⟩ := connect_eq_ok_iff.mp ‹_›
    exact List.length_map _
  · rfl

theorem length_addFormulaAt (c : Circuit) (f : Formula) (x y : Int) :
    (c.addFormulaAt f x y).2.gates.length = c.gates.length + f.size := by
  induction f generalizing c x y with
  | var letter => exact length_addGate _ _ _
  | not f ih =>
    simp only [addFormulaAt, Formula.size, length_wire, ih, length_addGate]
    omega
  | binary op f g ihf ihg =>
    simp only [addFormulaAt, Formula.size, length_wire, ihf, ihg, length_addGate]
    omega

theorem WellFormed.addFormulaAt {c : Circuit} (hc : c.WellFormed) {f : Formula}
    (h : c.gates.length + f.size ≤ idBound) (x y : Int) : (c.addFormulaAt f x y).2.WellFormed := by
  induction f generalizing c x y with
  | var letter => exact hc.addGate h _ _
  | not f ih =>
    rw [Formula.size] at h
    refine WellFormed.wire (ih (hc.addGate (by omega) _ _) ?_ _ _) _ _ _
    rw [length_addGate]
    omega
  | binary op f g ihf ihg =>
    rw [Formula.size] at h
    refine WellFormed.wire (WellFormed.wire (ihg (ihf (hc.addGate (by omega) _ _) ?_ _ _) ?_ _ _)
      _ _ _) _ _ _
    · rw [length_addGate]
      omega
    · rw [length_addFormulaAt, length_addGate]
      omega

theorem WellFormed.addFormulas {c : Circuit} (hc : c.WellFormed) {fs : List Formula}
    (h : c.gates.length + (fs.map Formula.size).sum ≤ idBound) :
    (c.addFormulas fs).2.WellFormed := by
  induction fs generalizing c with
  | nil => exact hc
  | cons f fs ih =>
    rw [List.map_cons, List.sum_cons] at h
    refine ih (hc.addFormulaAt (by omega) _ _) ?_
    rw [length_addFormulaAt]
    omega

theorem WellFormed.empty : empty.WellFormed := by
  refine ⟨.nil, ?_, Nat.zero_le _, ?_, ?_, .nil, ?_, ?_, ?_⟩ <;> simp [Circuit.empty]

/-! ## Circuits of records -/

theorem WellFormed.addGateRecord {c d : Circuit} (hc : c.WellFormed) {r : GateRecord}
    (h : r.addTo c = .ok d) : d.WellFormed := by
  unfold GateRecord.addTo at h
  split at h
  · cases h
  · rename_i kind _
    split_ifs at h
    refine hc.addGateAs h ?_ ?_
    · simp [Gate.fresh]
    · exact Gate.driver?_fresh r.id kind ⟨r.x, r.y⟩

theorem WellFormed.of_record {r : CircuitRecord} {c : Circuit} (h : r.circuit = .ok c) :
    c.WellFormed := by
  unfold CircuitRecord.circuit at h
  obtain ⟨c₁, hg, h⟩ := bind_eq_ok.mp h
  obtain ⟨c₂, hw, h⟩ := bind_eq_ok.mp h
  obtain ⟨_, -, h⟩ := bind_eq_ok.mp h
  have h₁ : c₁.WellFormed := foldlM_keeps (fun _ _ _ hb => hb.addGateRecord) .empty hg
  have h₂ : c₂.WellFormed := foldlM_keeps (fun _ _ _ hb => hb.connect) h₁ hw
  split at h
  · cases h
    exact h₂
  · cases h

end Circuit

/-! ## Reachable circuits -/

/-- An operation on a circuit, with its arguments. -/
inductive Circuit.Edit where
  | addGate (kind : GateKind) (position : Position)
  | connect (source target : GateId) (slot : Nat)
  | disconnect (target : GateId) (slot : Nat)
  | removeGate (id : GateId)
  | moveGate (id : GateId) (position : Position)
  | clear
  | setInput (letter : Char) (value : Value)
  | setInputs (s : Assignment)
  | resetInputs
  | applyValues (value : GateId → Value)
  | clearActivity
  | tabulate (limits : Limits)
  | advance (propagation : Propagation)

namespace Circuit

/-- The circuit after an operation, the same one if the operation is refused. -/
def Edit.apply (c : Circuit) : Edit → Circuit
  | addGate kind position => (c.addGate kind position).2
  | connect source target slot =>
    match c.connect source target slot with
    | .ok d => d
    | .error _ => c
  | disconnect target slot => ((c.disconnect? target slot).map (·.2)).getD c
  | removeGate id => (c.removeGate? id).getD c
  | moveGate id position => (c.moveGate? id position).getD c
  | clear => empty
  | setInput letter value => c.setInput letter value
  | setInputs s => c.setInputs s
  | resetInputs => c.resetInputs
  | applyValues value => c.applyValues value
  | clearActivity => c.clearActivity
  | tabulate limits => (c.tabulate limits).circuit
  | advance propagation => (propagation.advance c).circuit

/-- A gate is only added while fewer gates than identifiers are present. -/
def Edit.Allowed (c : Circuit) : Edit → Prop
  | addGate _ _ => c.gates.length < idBound
  | _ => True

/-- Each of the operations is allowed where it is made. -/
def Edit.AllAllowed (c : Circuit) : List Edit → Prop
  | [] => True
  | e :: rest => e.Allowed c ∧ AllAllowed (e.apply c) rest

/-- The circuits that arise from nothing, from formulas or from a record by operations in any
order. -/
inductive Reachable : Circuit → Prop
  | empty : Reachable empty
  | built (fs : List Formula) (h : (fs.map Formula.size).sum ≤ idBound) :
      Reachable (Circuit.empty.addFormulas fs).2
  | loaded {r : CircuitRecord} {c : Circuit} (h : r.circuit = .ok c) : Reachable c
  | edited {c : Circuit} (hc : Reachable c) (e : Edit) (he : e.Allowed c) : Reachable (e.apply c)

theorem WellFormed.edit {c : Circuit} (hc : c.WellFormed) {e : Edit} (he : e.Allowed c) :
    (e.apply c).WellFormed := by
  cases e with
  | addGate kind position => exact hc.addGate he kind position
  | connect source target slot => exact hc.wire source target slot
  | disconnect target slot =>
    cases hd : c.disconnect? target slot with
    | none =>
      rw [Edit.apply, hd]
      exact hc
    | some p =>
      rw [Edit.apply, hd]
      exact hc.disconnect hd
  | removeGate id =>
    cases hd : c.removeGate? id with
    | none =>
      rw [Edit.apply, hd]
      exact hc
    | some d =>
      rw [Edit.apply, hd]
      exact hc.removeGate hd
  | moveGate id position =>
    cases hd : c.moveGate? id position with
    | none =>
      rw [Edit.apply, hd]
      exact hc
    | some d =>
      rw [Edit.apply, hd]
      exact hc.of_skeleton_eq (skeleton_moveGate hd)
  | clear => exact .empty
  | setInput letter value => exact hc.of_skeleton_eq (c.skeleton_setInput letter value)
  | setInputs s => exact hc.of_skeleton_eq (c.skeleton_setInputs s)
  | resetInputs => exact hc.of_skeleton_eq c.skeleton_resetInputs
  | applyValues value => exact hc.of_skeleton_eq (c.skeleton_applyValues value)
  | clearActivity => exact hc.of_skeleton_eq c.skeleton_clearActivity
  | tabulate limits => exact hc.of_skeleton_eq (c.skeleton_tabulate limits)
  | advance propagation => exact hc.of_skeleton_eq (c.skeleton_advance propagation)

theorem Reachable.edits {c : Circuit} (hc : c.Reachable) {es : List Edit}
    (he : Edit.AllAllowed c es) : (es.foldl Edit.apply c).Reachable := by
  induction es generalizing c with
  | nil => exact hc
  | cons e es ih => exact ih (hc.edited e he.1) he.2

theorem Reachable.wellFormed {c : Circuit} (hc : c.Reachable) : c.WellFormed := by
  induction hc with
  | empty => exact .empty
  | built fs h => exact WellFormed.empty.addFormulas (by simpa [Circuit.empty] using h)
  | loaded h => exact .of_record h
  | edited _ e he ih => exact ih.edit he

end Circuit

end LogicCircuit
