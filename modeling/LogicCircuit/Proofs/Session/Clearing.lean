import LogicCircuit.Proofs.TruthTable.Complete
import LogicCircuit.Session

/-!
# What a tabulation leaves behind

Tabulating a circuit stores assignments in its inputs and unsets them in the end. A circuit without
outputs has an empty table, and then nothing is stored and nothing is unset: inputs that were set
stay set. Only circuits with loops have no outputs, so the inputs of all others are unset.

Results:
* `circuit_tabulate`: the circuit afterwards, unless it has too many letters.
* `tabulation_clears`: what is changed, and when all inputs are unset.
-/

namespace LogicCircuit.Circuit

variable {c : Circuit}

/-- No gate of a letter carries a bit. -/
def InputsUnset (c : Circuit) : Prop :=
  ∀ g ∈ c.gates, g.kind.letter?.isSome = true → g.value = .unset

/-- The circuits have the same gates and wires, but for the values of the gates of letters. -/
structure SameButInputs (c d : Circuit) : Prop where
  gates : List.Forall₂ (fun g h => h = { g with value := h.value } ∧
    (g.kind.letter? = none → h.value = g.value)) c.gates d.gates
  wires : d.wires = c.wires
  nextId : d.nextId = c.nextId

theorem SameButInputs.refl (c : Circuit) : c.SameButInputs c :=
  ⟨List.forall₂_same.mpr fun _ _ => ⟨rfl, fun _ => rfl⟩, rfl, rfl⟩

/-! ## Unsetting the inputs -/

theorem inputsUnset_resetInputs (c : Circuit) : c.resetInputs.InputsUnset := by
  intro g hg hletter
  rw [resetInputs_eq] at hg
  obtain ⟨a, -, rfl⟩ := List.mem_map.mp hg
  unfold withoutInput at hletter ⊢
  split_ifs at hletter ⊢ with h
  · rfl
  · exact absurd hletter h

theorem sameButInputs_resetInputs (c : Circuit) : c.SameButInputs c.resetInputs := by
  rw [resetInputs_eq]
  refine ⟨?_, rfl, rfl⟩
  rw [List.forall₂_map_right_iff]
  refine List.forall₂_same.mpr fun g _ => ?_
  unfold withoutInput
  split_ifs with h
  · refine ⟨rfl, fun hnone => ?_⟩
    rw [hnone] at h
    cases h
  · exact ⟨rfl, fun _ => rfl⟩

/-- Without letters there is nothing to unset. -/
theorem resetInputs_of_no_letters (h : c.letters = []) : c.resetInputs = c := by
  have hgate : ∀ g ∈ c.gates, withoutInput g = g := by
    intro g hg
    refine if_neg fun hletter => ?_
    obtain ⟨letter, hk⟩ := Option.isSome_iff_exists.mp hletter
    have hmem : letter ∈ c.letters := List.mem_eraseDups.mpr (List.mem_filterMap.mpr ⟨g, hg, hk⟩)
    rw [h] at hmem
    cases hmem
  rw [resetInputs_eq, List.map_congr_left hgate, List.map_id']

/-! ## The circuit after a tabulation -/

theorem length_letters_le {limits : Limits}
    (h : ∀ n k, (c.tabulate limits).table ≠ .error (.tooLarge n k)) :
    c.letters.length ≤ limits.tableLetters := by
  by_contra hlt
  refine h c.letters.length limits.tableLetters ?_
  unfold tabulate truthTable
  simp only [if_pos (Nat.lt_of_not_le hlt)]

/-- The inputs of a circuit are unset if it has an output. -/
theorem circuit_tabulate {limits : Limits} (hk : c.letters.length ≤ limits.tableLetters) :
    (c.tabulate limits).circuit = if c.sinks = [] then c else c.resetInputs := by
  unfold tabulate tabulates
  simp only [decide_eq_true hk, Bool.true_and, Bool.and_eq_true, Bool.not_eq_true',
    List.isEmpty_eq_false_iff]
  by_cases hs : c.sinks = []
  · rw [if_pos hs, if_neg fun h => h.2 hs]
  · rw [if_neg hs]
    split_ifs with h
    · rfl
    · exact (resetInputs_of_no_letters (not_not.mp fun hl => h ⟨hl, hs⟩)).symm

/-- What a tabulation has done to a circuit that does not have too many letters. -/
structure ClearedTo (c d : Circuit) : Prop where
  /-- Nothing but the inputs is changed. -/
  frame : c.SameButInputs d
  /-- All inputs are unset if there is an output, and else only if they were unset before. -/
  unset : d.InputsUnset ↔ c.sinks ≠ [] ∨ c.InputsUnset
  /-- Without an output nothing is done. -/
  kept : c.sinks = [] → d = c
  /-- Without a loop all inputs are unset. -/
  acyclic : c.Acyclic → d.InputsUnset

theorem clearedTo_of_sinks (hc : c.WellFormed) :
    c.ClearedTo (if c.sinks = [] then c else c.resetInputs) := by
  by_cases hs : c.sinks = []
  · rw [if_pos hs]
    refine ⟨.refl c, (or_iff_right (not_not.mpr hs)).symm, fun _ => rfl, fun ha => ?_⟩
    have hg : c.gates = [] := not_not.mp fun hg => hc.sinks_ne_nil ha hg hs
    intro g hmem
    rw [hg] at hmem
    cases hmem
  · rw [if_neg hs]
    have hunset := c.inputsUnset_resetInputs
    exact ⟨c.sameButInputs_resetInputs, iff_of_true hunset (Or.inl hs), fun h => absurd h hs,
      fun _ => hunset⟩

/-- A tabulation, on its own or within a session, that is not refused for too many letters unsets
the inputs of every circuit with an output, so those of every circuit without a loop, and changes
nothing else. -/
theorem tabulation_clears (hc : c.WellFormed) {limits : Limits}
    (h : ∀ n k, (c.tabulate limits).table ≠ .error (.tooLarge n k)) :
    c.ClearedTo (c.tabulate limits).circuit ∧ ∀ s : Session, s.circuit = c → s.limits = limits →
      c.ClearedTo s.truthTable.2.circuit ∧ c.ClearedTo s.csv.2.circuit := by
  have hcleared : c.ClearedTo (c.tabulate limits).circuit := by
    rw [circuit_tabulate (length_letters_le h)]
    exact clearedTo_of_sinks hc
  refine ⟨hcleared, fun s hs hl => ?_⟩
  subst hs hl
  exact ⟨hcleared, hcleared⟩

/-- A letter that is set drives a ring, and there is no output. -/
def drivenRing : Circuit :=
  [Edit.addGate (.var 'A') {}, .addGate (.binary .and) {}, .addGate .not {}, .connect 0 1 0,
    .connect 2 1 1, .connect 1 2 0, .setInput 'A' (.known true)].foldl Edit.apply empty

/-- The same with an inverter behind the ring. -/
def observedRing : Circuit :=
  [Edit.addGate .not {}, .connect 1 3 0].foldl Edit.apply drivenRing

theorem drivenRing_reachable : drivenRing.Reachable := Reachable.empty.edits
  ⟨(by decide : 0 < idBound), (by decide : 1 < idBound), (by decide : 2 < idBound), trivial,
    trivial, trivial, trivial, trivial⟩

theorem not_inputsUnset_drivenRing : ¬ (drivenRing.tabulate {}).circuit.InputsUnset := by
  unfold InputsUnset
  decide

/-- The input stays set where the ring has no output. Behind the ring the loop is reported, and the
input is unset. -/
theorem tabulation_clears_rings :
    (drivenRing.WellFormed ∧ (drivenRing.tabulate {}).table = .ok ⟨['A'], [], []⟩ ∧
      drivenRing.ClearedTo (drivenRing.tabulate {}).circuit ∧
      ¬ (drivenRing.tabulate {}).circuit.InputsUnset) ∧
    observedRing.WellFormed ∧ (observedRing.tabulate {}).table = .error (.loop ⟨1⟩) ∧
      observedRing.ClearedTo (observedRing.tabulate {}).circuit ∧
      (observedRing.tabulate {}).circuit.InputsUnset := by
  have hd := drivenRing_reachable.wellFormed
  have hr : observedRing.Reachable :=
    drivenRing_reachable.edits ⟨(by decide : 3 < idBound), trivial, trivial⟩
  have ho := hr.wellFormed
  have htable : (drivenRing.tabulate {}).table = .ok ⟨['A'], [], []⟩ := by decide
  have hloop : (observedRing.tabulate {}).table = .error (.loop ⟨1⟩) := by decide
  have hcd : drivenRing.ClearedTo (drivenRing.tabulate {}).circuit :=
    (tabulation_clears hd fun n k => by rw [htable]; simp).1
  have hco : observedRing.ClearedTo (observedRing.tabulate {}).circuit :=
    (tabulation_clears ho fun n k => by rw [hloop]; simp).1
  exact ⟨⟨hd, htable, hcd, not_inputsUnset_drivenRing⟩, ho, hloop, hco,
    hco.unset.mpr (Or.inl (by decide))⟩

/-- A tabulation that is not refused does not always unset the inputs. -/
theorem not_tabulation_unsets : ¬ ∀ (c : Circuit) (limits : Limits), c.WellFormed →
    (∀ n k, (c.tabulate limits).table ≠ .error (.tooLarge n k)) →
      (c.tabulate limits).circuit.InputsUnset := by
  intro h
  refine not_inputsUnset_drivenRing (h drivenRing {} drivenRing_reachable.wellFormed ?_)
  intro n k
  rw [show (drivenRing.tabulate {}).table = .ok ⟨['A'], [], []⟩ by decide]
  simp

end LogicCircuit.Circuit
