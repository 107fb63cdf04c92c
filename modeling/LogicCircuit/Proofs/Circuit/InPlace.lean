import LogicCircuit.Proofs.Circuit.Reachable

/-!
# Edits in place

The wiring can also be edited in place, one change after the other, where what was changed before a
refusal would stay changed. All checks come before the first change, so a refused edit leaves the
circuit as it was, and any other edit comes to what the edit of a copy comes to.

Results:
* `run_connectInPlace`, `run_disconnectInPlace`, `run_removeInPlace`: what an edit in place answers,
  and the circuit behind it.
-/

namespace LogicCircuit.Circuit

/-! ## The edits -/

/-- Fill a slot, and then add the wire that belongs to it. -/
def connectInPlace (source target : GateId) (slot : Nat) :
    StateM Circuit (Except CircuitError Unit) := do
  let c ← get
  if !c.contains source then
    return .error (.unknownGate source)
  if source = target then
    return .error (.selfLoop source)
  match c.gate? target with
  | none => return .error (.unknownGate target)
  | some g =>
    if g.slots.length ≤ slot then
      return .error (.arityMismatch target g.slots.length slot)
    if (g.driver? slot).isSome then
      return .error (.slotTaken target slot)
    modify (·.setSlot target slot (some source))
    modify fun c => { c with wires := c.wires ++ [{ source, target, slot }] }
    return .ok ()

/-- Remove the first wire that enters a slot, and then empty the slot. -/
def disconnectInPlace (target : GateId) (slot : Nat) : StateM Circuit (Option Wire) := do
  let c ← get
  match c.wires.findIdx? (·.enters target slot) with
  | none => return none
  | some i =>
    modify fun c => { c with wires := c.wires.eraseIdx i }
    modify (·.setSlot target slot none)
    return c.wires[i]?

/-- Remove a gate, then the wires at it, and then empty the slots that it fills. -/
def removeInPlace (id : GateId) : StateM Circuit Bool := do
  let c ← get
  match c.gates.findIdx? (·.id == id) with
  | none => return false
  | some i =>
    modify fun c => { c with gates := c.gates.eraseIdx i }
    modify fun c => { c with wires := c.wires.filter fun w => w.source != id && w.target != id }
    modify (·.mapGates (·.forget id))
    return true

/-! ## What they come to -/

theorem run_connectInPlace (c : Circuit) (source target : GateId) (slot : Nat) :
    (connectInPlace source target slot).run c =
      ((c.connect source target slot).map fun _ => (), (Edit.connect source target slot).apply c)
    := by
  unfold connectInPlace Edit.apply connect
  by_cases hsource : c.contains source
  · by_cases hself : source = target
    · subst hself
      simp [hsource]
      rfl
    · cases hg : c.gate? target with
      | none =>
        simp [hsource, hself, hg]
        rfl
      | some g =>
        by_cases hslot : g.slots.length ≤ slot
        · simp [hsource, hself, hg, hslot]
          rfl
        · by_cases htaken : (g.driver? slot).isSome
          · simp [hsource, hself, hg, hslot, htaken]
            rfl
          · simp [hsource, hself, hg, hslot, htaken]
            rfl
  · simp [hsource]
    rfl

theorem run_disconnectInPlace (c : Circuit) (target : GateId) (slot : Nat) :
    (disconnectInPlace target slot).run c =
      ((c.disconnect? target slot).map (·.1), (Edit.disconnect target slot).apply c) := by
  simp only [disconnectInPlace, Edit.apply, disconnect?]
  rw [List.find?_eq_bind_findIdx?_getElem?, List.eraseP_eq_eraseIdx]
  cases hi : c.wires.findIdx? (·.enters target slot) with
  | none =>
    simp [hi]
    rfl
  | some i =>
    obtain ⟨hlt, -⟩ := List.findIdx?_eq_some_iff_getElem.mp hi
    simp [hi, hlt]
    rfl

/-- As no two gates have one identifier, taking away one gate takes away all with the identifier. -/
theorem run_removeInPlace {c : Circuit} (hc : c.WellFormed) (id : GateId) :
    (removeInPlace id).run c = ((c.removeGate? id).isSome, (Edit.removeGate id).apply c) := by
  have hgates : c.gates.filter (·.id != id) = c.gates.eraseP (·.id == id) :=
    (eraseP_eq_filter hc.nodup_ids fun _ => beq_iff_eq).symm
  simp only [removeInPlace, Edit.apply, removeGate?]
  rw [hgates, List.eraseP_eq_eraseIdx]
  cases hi : c.gates.findIdx? (·.id == id) with
  | none =>
    have hmissing : c.contains id = false := by
      simpa [contains] using List.findIdx?_eq_none_iff.mp hi
    simp [hi, hmissing]
    rfl
  | some i =>
    obtain ⟨hlt, hid, -⟩ := List.findIdx?_eq_some_iff_getElem.mp hi
    have hfound : c.contains id = true := List.any_eq_true.mpr ⟨_, List.getElem_mem hlt, hid⟩
    simp [hi, hfound]
    rfl

end LogicCircuit.Circuit
