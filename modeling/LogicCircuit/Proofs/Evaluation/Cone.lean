import LogicCircuit.Proofs.Circuit.Loops
import LogicCircuit.Proofs.Evaluation.Locality

/-!
# What determines the value of a gate

The cone of a gate consists of the gate and of all gates that it depends on, directly or through
others. An evaluation makes the gate unset exactly if a signal is missing somewhere in its cone; no
operator makes up for an unset operand by the value of the other one. So the letters in its cone
are all that a gate depends on, and a bit that it carries is not changed by assigning more letters.

Results:
* `Gate.compute_eq_unset_iff`: which signals make a single gate unset.
* `eq_unset_iff_cone`, `eq_of_agree_on_cone`: the same for whole cones, of any values that solve
  the equations of the gates.
* `cone_determines`: what an evaluation gives to a gate.
-/

namespace LogicCircuit

/-! ## One gate -/

namespace Gate

/-- A signal is missing at the gate itself: one of its slots is empty, or it stands for a letter
that is not assigned. -/
def Lacks (s : Assignment) (g : Gate) : Prop :=
  none ∈ g.slots ∨ ∃ letter, g.kind = .var letter ∧ s.get? letter = none

theorem complement_eq_unset_iff {v : Value} : v.complement = .unset ↔ v = .unset := by
  cases v <;> simp [Value.complement]

theorem combine_eq_unset_iff {op : Operator} {v w : Value} :
    op.combine v w = .unset ↔ v = .unset ∨ w = .unset := by
  cases v <;> cases w <;> simp

/-- Some slot receives no bit exactly if it is empty or its driver is unset. -/
theorem exists_inputValue_eq_unset_iff {value : GateId → Value} {g : Gate} :
    (∃ slot < g.slots.length, g.inputValue value slot = .unset) ↔
      none ∈ g.slots ∨ ∃ d ∈ g.inputs, value d = .unset := by
  constructor
  · rintro ⟨slot, hlt, hunset⟩
    unfold inputValue at hunset
    cases hd : g.driver? slot with
    | none =>
      refine Or.inl (List.mem_iff_getElem.mpr ⟨slot, hlt, ?_⟩)
      simpa [driver?, List.getElem?_eq_getElem hlt] using hd
    | some d =>
      rw [hd] at hunset
      exact Or.inr ⟨d, mem_inputs.mpr ⟨slot, hd⟩, hunset⟩
  · rintro (hempty | ⟨d, hd, hunset⟩)
    · obtain ⟨slot, hlt, hslot⟩ := List.mem_iff_getElem.mp hempty
      refine ⟨slot, hlt, ?_⟩
      simp [inputValue, driver?, List.getElem?_eq_getElem hlt, hslot]
    · obtain ⟨slot, hslot⟩ := mem_inputs.mp hd
      refine ⟨slot, driver?_lt hslot, ?_⟩
      rw [inputValue, hslot]
      exact hunset

/-- A gate is unset exactly if it lacks a signal or one of the gates that drive it is unset. -/
theorem compute_eq_unset_iff {s : Assignment} {value : GateId → Value} {g : Gate}
    (h : g.slots.length = g.kind.arity) :
    g.compute s value = .unset ↔ g.Lacks s ∨ ∃ d ∈ g.inputs, value d = .unset := by
  rw [Lacks, or_right_comm, ← exists_inputValue_eq_unset_iff, h, compute]
  cases g.kind with
  | const b => simp [GateKind.arity]
  | var letter =>
    cases hs : s.get? letter <;> simp [GateKind.arity, Assignment.value, Value.ofBit?, hs]
  | not => simp [GateKind.arity, complement_eq_unset_iff]
  | binary op =>
    simp only [GateKind.arity, combine_eq_unset_iff, reduceCtorEq, false_and, exists_false,
      or_false, Nat.lt_succ_iff, Nat.le_one_iff_eq_zero_or_eq_one, or_and_right, exists_or,
      exists_eq_left]

end Gate

/-! ## Cones -/

namespace Circuit

variable {c : Circuit}

/-- The gate with the identifier and the gates it depends on, directly or through others. -/
def InCone (c : Circuit) (id : GateId) (g : Gate) : Prop :=
  g ∈ c.gates ∧ Relation.ReflTransGen c.DependsOn id g.id

/-- The cone of a gate is the gate and the cones of the gates that drive it. -/
theorem inCone_iff (hc : c.WellFormed) {g h : Gate} (hg : g ∈ c.gates) :
    c.InCone g.id h ↔ h = g ∨ ∃ d ∈ g.inputs, c.InCone d h := by
  unfold InCone
  constructor
  · rintro ⟨hh, hdep⟩
    rcases Relation.ReflTransGen.cases_head hdep with hid | ⟨d, ⟨g', hg', hid, hd⟩, hrest⟩
    · exact Or.inl (hc.eq_of_id_eq hh hg hid.symm)
    · obtain rfl := hc.eq_of_id_eq hg' hg hid
      exact Or.inr ⟨d, hd, hh, hrest⟩
  · rintro (rfl | ⟨d, hd, hh, hdep⟩)
    · exact ⟨hg, .refl⟩
    · exact ⟨hh, hdep.head ⟨g, hg, rfl, hd⟩⟩

/-- Assignments that agree on the letters in the cone of a gate. -/
def AgreeOnCone (c : Circuit) (id : GateId) (s t : Assignment) : Prop :=
  ∀ g, c.InCone id g → ∀ letter, g.kind = .var letter → s.get? letter = t.get? letter

section Solutions

variable (hc : c.WellFormed) (ha : c.Acyclic)
include hc ha

/-- What solves the equations of the gates leaves a gate unset exactly if some gate of its cone
lacks a signal. -/
theorem eq_unset_iff_cone {s : Assignment} {v : GateId → Value}
    (hv : ∀ g ∈ c.gates, g.Equation s v) {id : GateId} (hid : id ∈ c.ids) :
    v id = .unset ↔ ∃ g, c.InCone id g ∧ g.Lacks s := by
  induction ha.acc id with
  | intro id _ ih =>
    obtain ⟨g, hg, rfl⟩ := mem_ids.mp hid
    have hin : ∀ d ∈ g.inputs, v d = .unset ↔ ∃ h, c.InCone d h ∧ h.Lacks s :=
      fun d hd => ih d ⟨g, hg, rfl, hd⟩ (hc.input_mem hg hd)
    rw [Gate.equation_iff.mp (hv g hg), Gate.compute_eq_unset_iff (hc.arity g hg)]
    simp only [inCone_iff hc hg, or_and_right, exists_or, exists_eq_left]
    refine or_congr_right ⟨?_, ?_⟩
    · rintro ⟨d, hd, hunset⟩
      obtain ⟨h, hcone, hlacks⟩ := (hin d hd).mp hunset
      exact ⟨h, ⟨d, hd, hcone⟩, hlacks⟩
    · rintro ⟨h, ⟨d, hd, hcone⟩, hlacks⟩
      exact ⟨d, hd, (hin d hd).mpr ⟨h, hcone, hlacks⟩⟩

/-- What solves the equations of the gates for one assignment gives a gate the same value as what
does for another one that agrees with it on the cone. -/
theorem eq_of_agree_on_cone {s t : Assignment} {v w : GateId → Value}
    (hv : ∀ g ∈ c.gates, g.Equation s v) (hw : ∀ g ∈ c.gates, g.Equation t w) {id : GateId}
    (hid : id ∈ c.ids) (h : c.AgreeOnCone id s t) : v id = w id := by
  induction ha.acc id with
  | intro id _ ih =>
    obtain ⟨g, hg, rfl⟩ := mem_ids.mp hid
    have hself : c.InCone g.id g := (inCone_iff hc hg).mpr (Or.inl rfl)
    have hin : ∀ d ∈ g.inputs, v d = w d := by
      intro d hd
      refine ih d ⟨g, hg, rfl, hd⟩ (hc.input_mem hg hd) fun a hcone => ?_
      exact h a ((inCone_iff hc hg).mpr (Or.inr ⟨d, hd, hcone⟩))
    calc v g.id = g.compute s v := Gate.equation_iff.mp (hv g hg)
      _ = g.compute t v := Gate.compute_congr_assignment (h g hself) v
      _ = g.compute t w := Gate.compute_congr hin
      _ = w g.id := (Gate.equation_iff.mp (hw g hg)).symm

end Solutions

/-! ## Evaluations -/

/-- What an evaluation under the first assignment says about a gate. -/
structure DeterminedByCone (c : Circuit) (id : GateId) (s : Assignment) (e : Evaluation) :
    Prop where
  /-- The gate is unset exactly if some gate of its cone has an empty slot or stands for a letter
  that is not assigned. -/
  unset : e.value id = .unset ↔ ∃ g, c.InCone id g ∧ g.Lacks s
  /-- Letters outside the cone make no difference. -/
  congr : ∀ t, c.AgreeOnCone id s t → ∃ e', c.evaluate t = .ok e' ∧ e'.value id = e.value id
  /-- A bit stays when further letters are assigned. -/
  stable : ∀ t : Assignment, (∀ letter b, s.get? letter = some b → t.get? letter = some b) →
    ∀ bit, e.value id = .known bit → ∃ e', c.evaluate t = .ok e' ∧ e'.value id = .known bit

/-- If the cone lacks no signal, an assignment that gives no letter another bit agrees on it. -/
theorem agreeOnCone_of_le {id : GateId} {s t : Assignment}
    (hcone : ∀ g, c.InCone id g → ¬ g.Lacks s)
    (h : ∀ letter b, s.get? letter = some b → t.get? letter = some b) :
    c.AgreeOnCone id s t := by
  intro g hg letter hk
  have hassigned : s.get? letter ≠ none := fun hnone => hcone g hg (Or.inr ⟨letter, hk, hnone⟩)
  obtain ⟨b, hb⟩ := Option.ne_none_iff_exists'.mp hassigned
  rw [hb, h letter b hb]

/-- In an acyclic circuit the cone of a gate determines its value under every assignment. -/
theorem cone_determines (hc : c.WellFormed) (ha : c.Acyclic) {id : GateId} (hid : id ∈ c.ids)
    (s : Assignment) : ∃ e, c.evaluate s = .ok e ∧ c.DeterminedByCone id s e := by
  obtain ⟨e, he, hexact⟩ := evaluate_acyclic hc ha s
  have hunset := eq_unset_iff_cone hc ha hexact.solves hid
  have hcongr : ∀ t, c.AgreeOnCone id s t →
      ∃ e', c.evaluate t = .ok e' ∧ e'.value id = e.value id := by
    intro t ht
    obtain ⟨e', he', hexact'⟩ := evaluate_acyclic hc ha t
    exact ⟨e', he', (eq_of_agree_on_cone hc ha hexact.solves hexact'.solves hid ht).symm⟩
  refine ⟨e, he, hunset, hcongr, fun t ht bit hbit => ?_⟩
  have hcone : ∀ g, c.InCone id g → ¬ g.Lacks s := by
    intro g hg hlacks
    have hno := hunset.mpr ⟨g, hg, hlacks⟩
    rw [hbit] at hno
    cases hno
  obtain ⟨e', he', hvalue⟩ := hcongr t (agreeOnCone_of_le hcone ht)
  exact ⟨e', he', hvalue.trans hbit⟩

/-- A disjunction of a one with a letter, the same letter beside it, and a conjunction of a zero
with an empty slot. -/
def controlled : Circuit :=
  [Edit.addGate (.const true) {}, .addGate (.var 'a') {}, .addGate (.binary .or) {},
    .addGate (.const false) {}, .addGate (.binary .and) {}, .connect 0 2 0, .connect 1 2 1,
    .connect 3 4 1].foldl Edit.apply empty

/-- A one does not decide the disjunction as long as the letter is not assigned; assigning another
letter changes nothing. -/
theorem cone_determines_controlled :
    controlled.WellFormed ∧ controlled.Acyclic ∧ 2 ∈ controlled.ids ∧
      ∃ e, controlled.evaluate (.ofList [('B', true)]) = .ok e ∧
        controlled.DeterminedByCone 2 (.ofList [('B', true)]) e := by
  have hr : controlled.Reachable := Reachable.empty.edits
    ⟨(by decide : 0 < idBound), (by decide : 1 < idBound), (by decide : 2 < idBound),
      (by decide : 3 < idBound), (by decide : 4 < idBound), trivial, trivial, trivial, trivial⟩
  have hplan : controlled.plan = .ok ([0, 1, 2, 3, 4].filterMap controlled.gate?) := by decide
  have ha : controlled.Acyclic := acyclic_of_plan hr.wellFormed hplan
  have hid : 2 ∈ controlled.ids := by decide
  exact ⟨hr.wellFormed, ha, hid, cone_determines hr.wellFormed ha hid _⟩

end Circuit

end LogicCircuit
