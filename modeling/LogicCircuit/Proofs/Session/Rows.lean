import LogicCircuit.Proofs.Session.Display
import LogicCircuit.Proofs.TruthTable.Complete

/-!
# Going through a truth table by hand

The rows of a truth table can be had one by one as well, by setting the letters of a circuit and
evaluating it. Setting a letter reaches all its gates and none of another letter, so the letters can
be set in any order, whatever the gates carried before, and all of them are read back. Evaluating
stores nothing that an evaluation reads, so evaluating again comes to the same.

Results:
* `carries_setLetters`: what the gates carry after some letters have been set.
* `evaluate_again`: a second evaluation changes nothing.
* `evaluate_setInputs_readBack`: an assignment that is stored in the inputs and read back evaluates
  the circuit as before.
* `follows_tabulate`: the rows of the table, by hand.
-/

namespace LogicCircuit

/-! ## Assignments that are stored and read back -/

namespace Circuit

variable {c : Circuit}

theorem evaluate_setInputs_readBack (hc : c.WellFormed) (a : Assignment) :
    (c.setInputs a).evaluate (c.setInputs a).inputAssignment = c.evaluate a := by
  rw [evaluate_setInputs]
  refine evaluate_congr hc fun l hl => ?_
  have hd : (c.setInputs a).WellFormed := hc.of_skeleton_eq (c.skeleton_setInputs a)
  have hl' : l ∈ (c.setInputs a).letters := by
    rwa [letters_of_skeleton (c.skeleton_setInputs a)]
  rw [(carries_setInputs c a l).get?_inputAssignment hd hl', Assignment.value, Value.bit?_ofBit?]

theorem applyValues_applyValues (c : Circuit) (value : GateId → Value) :
    (c.applyValues value).applyValues value = c.applyValues value := by
  have hgate : ∀ g, withValue value (withValue value g) = withValue value g := by
    intro g
    unfold withValue
    split_ifs <;> rfl
  have hgates : ((c.applyValues value).applyValues value).gates = (c.applyValues value).gates := by
    rw [gates_applyValues, gates_applyValues, List.map_map]
    exact List.map_congr_left fun g _ => hgate g
  exact congrArg (fun gates => { c with gates }) hgates

end Circuit

namespace Session

variable {s : Session}

/-! ## Setting letters one after the other -/

/-- Set some letters to bits, one after the other. -/
def setLetters (s : Session) (bits : List (Char × Bool)) : Session :=
  bits.foldl (fun s p => s.setInput p.1 (.known p.2)) s

theorem skeleton_setLetters (s : Session) (bits : List (Char × Bool)) :
    (s.setLetters bits).circuit.skeleton = s.circuit.skeleton := by
  induction bits generalizing s with
  | nil => rfl
  | cons p bits ih => exact (ih _).trans (s.circuit.skeleton_setInput _ _)

/-- A letter that is not among those that are set keeps what it carries. -/
theorem carries_setLetters_of_notMem {l : Char} {v : Value} (h : s.circuit.Carries l v)
    {bits : List (Char × Bool)} (hl : l ∉ bits.map (·.1.toUpper)) :
    (s.setLetters bits).circuit.Carries l v := by
  induction bits generalizing s with
  | nil => exact h
  | cons p bits ih =>
    rw [List.map_cons, List.mem_cons, not_or] at hl
    exact ih (s := s.setInput p.1 _) (h.setInput hl.1 _) hl.2

/-- Letters that are set once each carry their bits in the end, whatever the order. -/
theorem carries_setLetters {bits : List (Char × Bool)} (hn : (bits.map (·.1.toUpper)).Nodup)
    {p : Char × Bool} (hp : p ∈ bits) :
    (s.setLetters bits).circuit.Carries p.1.toUpper (.known p.2) := by
  induction bits generalizing s with
  | nil => cases hp
  | cons q bits ih =>
    rw [List.map_cons, List.nodup_cons] at hn
    rcases List.mem_cons.mp hp with rfl | hp
    · exact carries_setLetters_of_notMem (s := s.setInput p.1 _) (s.circuit.carries_setInput _ _)
        hn.1
    · exact ih hn.2 hp

/-! ## Evaluating twice -/

theorem evaluate_of_eq_ok {e : Evaluation}
    (h : s.circuit.evaluate s.circuit.inputAssignment = .ok e) :
    s.evaluate = (.ok e, { s with circuit := s.circuit.applyValues e.value }) := by
  rw [evaluate, h]

/-- A second evaluation answers the same values and leaves the session as it is. -/
theorem evaluate_again {e : Evaluation} (h : s.evaluate.1 = .ok e) :
    s.evaluate.2.evaluate = (.ok e, s.evaluate.2) := by
  have hv := (evaluate_eq_ok h).1
  rw [evaluate_of_eq_ok hv]
  have hv' : (s.circuit.applyValues e.value).evaluate
      (s.circuit.applyValues e.value).inputAssignment = .ok e := by
    rw [Circuit.evaluate_of_skeleton (s.circuit.skeleton_applyValues e.value),
      Circuit.inputAssignment_applyValues, hv]
  rw [evaluate_of_eq_ok (s := { s with circuit := s.circuit.applyValues e.value }) hv']
  simp only [Circuit.applyValues_applyValues]

/-! ## The rows -/

/-- A session can be taken through the rows of a table by hand. -/
structure FollowsTable (s : Session) (t : TruthTable) : Prop where
  /-- Setting the letters to the bits of a row, in any order and in either case, and evaluating
  comes to the outputs of that row. A second evaluation answers the same and changes nothing. -/
  row : ∀ i < 2 ^ t.letters.length, ∃ r, t.rows[i]? = some r ∧
    r.inputs = binaryDigits t.letters.length i ∧ ∀ bits : List (Char × Bool),
      (bits.map fun p => (p.1.toUpper, p.2)).Perm (t.letters.zip r.inputs) →
        ∃ e, (s.setLetters bits).evaluate.1 = .ok e ∧ e.outputs = r.outputs ∧
          (s.setLetters bits).evaluate.2.evaluate = (.ok e, (s.setLetters bits).evaluate.2)
  /-- An assignment that is stored in the inputs and read back evaluates the circuit as before. -/
  readBack : ∀ a : Assignment, ∃ e, s.circuit.evaluate a = .ok e ∧
    (s.circuit.setInputs a).evaluate (s.circuit.setInputs a).inputAssignment = .ok e

variable {c : Circuit} {t : TruthTable}

/-- After setting the letters to the bits of a row, the bits of the row are read back. -/
theorem get?_setLetters (hc : s.circuit.WellFormed) {letters : List Char}
    (hletters : letters = s.circuit.letters) {inputs : List Bool}
    (hlength : inputs.length = letters.length) {bits : List (Char × Bool)}
    (hb : (bits.map fun p => (p.1.toUpper, p.2)).Perm (letters.zip inputs)) :
    letters.map (s.setLetters bits).circuit.inputAssignment.get? = inputs.map some := by
  have hd := hc.of_skeleton_eq (s.skeleton_setLetters bits)
  have hfst : (letters.zip inputs).map (·.1) = letters := List.map_fst_zip (by rw [hlength])
  have hsnd : (letters.zip inputs).map (·.2) = inputs := List.map_snd_zip (by rw [hlength])
  -- every letter is set once, so no setting undoes another one
  have hkeys : (bits.map (·.1.toUpper)).Nodup := by
    have h := hb.map (·.1)
    rw [List.map_map, hfst] at h
    exact h.nodup_iff.mpr (hletters ▸ s.circuit.nodup_letters)
  have hread : ∀ p ∈ letters.zip inputs,
      (s.setLetters bits).circuit.inputAssignment.get? p.1 = some p.2 := by
    intro p hp
    have hl : p.1 ∈ (s.setLetters bits).circuit.letters := by
      rw [Circuit.letters_of_skeleton (s.skeleton_setLetters bits), ← hletters]
      exact (List.of_mem_zip hp).1
    obtain ⟨q, hq, rfl⟩ := List.mem_map.mp (hb.mem_iff.mpr hp)
    exact (carries_setLetters hkeys hq).get?_inputAssignment hd hl
  calc letters.map (s.setLetters bits).circuit.inputAssignment.get?
      = ((letters.zip inputs).map (·.1)).map (s.setLetters bits).circuit.inputAssignment.get? := by
        rw [hfst]
    _ = ((letters.zip inputs).map (·.2)).map some := by
        rw [List.map_map, List.map_map]
        exact List.map_congr_left hread
    _ = inputs.map some := by rw [hsnd]

/-- The table of an acyclic circuit can be had row by row, in every session that holds a circuit
with the same gates and wires, whatever its gates carry. -/
theorem follows_tabulate (hc : c.WellFormed) (hacyclic : c.Acyclic) (hl : c.registry.letters ≠ [])
    {limits : Limits} (hk : c.registry.letters.length ≤ limits.tableLetters) :
    ∃ t, (c.tabulate limits).table = .ok t ∧ t.letters = c.registry.letters ∧
      t.rows.length = 2 ^ t.letters.length ∧
      ∀ s : Session, s.circuit.skeleton = c.skeleton → s.FollowsTable t := by
  rw [Circuit.letters_registry] at hl hk
  obtain ⟨t, ht, htable⟩ := Circuit.exists_completeTable hc hacyclic hk hl
  refine ⟨t, by rw [htable], ht.letters, ht.count, fun s hs => ⟨fun i hi => ?_, fun a => ?_⟩⟩
  · have hlt : i < t.rows.length := ht.count ▸ hi
    have hinputs := ht.inputs_getElem hlt
    refine ⟨t.rows[i], List.getElem?_eq_getElem hlt, hinputs, fun bits hb => ?_⟩
    have hletters : t.letters = s.circuit.letters := by
      rw [ht.letters, Circuit.letters_registry, Circuit.letters_of_skeleton hs]
    obtain ⟨e, he, houtputs⟩ := ht.outputs _ (List.getElem_mem hlt) _ (get?_setLetters
      (hc.of_skeleton_eq hs) hletters (by rw [hinputs, length_binaryDigits]) hb)
    have hskeleton := (s.skeleton_setLetters bits).trans hs
    have heval := evaluate_of_eq_ok ((Circuit.evaluate_of_skeleton hskeleton _).trans he)
    refine ⟨e, congrArg (·.1) heval, ?_, evaluate_again (congrArg (·.1) heval)⟩
    rw [houtputs, ht.sinks, ← Circuit.sinks_evaluate he]
    rfl
  · obtain ⟨e, he, -⟩ := Circuit.evaluate_acyclic hc hacyclic a
    rw [Circuit.evaluate_setInputs_readBack (hc.of_skeleton_eq hs),
      Circuit.evaluate_of_skeleton hs]
    exact ⟨e, he, he⟩

/-- Two letters, one of them with two gates and the other one set before, are set in the other
order and in small letters. -/
def thirdRow : Session :=
  ({ circuit := Circuit.lettersTwice } : Session).setLetters [('a', false), ('b', true)]

theorem follows_tabulate_lettersTwice :
    Circuit.lettersTwice.WellFormed ∧ Circuit.lettersTwice.Acyclic ∧
      Circuit.lettersTwice.registry.letters = ['B', 'A'] ∧ 2 ≤ ({} : Limits).tableLetters ∧
      ∃ t, (Circuit.lettersTwice.tabulate {}).table = .ok t ∧
        ({ circuit := Circuit.lettersTwice } : Session).FollowsTable t ∧
        ∃ r e, t.rows[2]? = some r ∧ r.inputs = [true, false] ∧ thirdRow.evaluate.1 = .ok e ∧
          e.outputs = r.outputs ∧
          thirdRow.evaluate.1.map (·.outputs) = .ok [.known true, .unset] := by
  have hletters : Circuit.lettersTwice.registry.letters = ['B', 'A'] := by decide
  have hk : 2 ≤ ({} : Limits).tableLetters := by decide
  obtain ⟨t, ht, htl, -, hfollows⟩ := follows_tabulate Circuit.lettersTwice_wellFormed
    Circuit.lettersTwice_acyclic (by rw [hletters]; simp) (by rw [hletters]; exact hk)
  have hs : ({ circuit := Circuit.lettersTwice } : Session).FollowsTable t := hfollows _ rfl
  rw [hletters] at htl
  obtain ⟨r, hr, hinputs, hrow⟩ := hs.row 2 (by rw [htl]; decide)
  rw [htl] at hinputs hrow
  have hbits : r.inputs = [true, false] := hinputs
  obtain ⟨e, he, houtputs, -⟩ := hrow [('a', false), ('b', true)]
    (by rw [hbits]; exact List.Perm.swap ('B', true) ('A', false) [])
  exact ⟨Circuit.lettersTwice_wellFormed, Circuit.lettersTwice_acyclic, hletters, hk, t, ht, hs, r,
    e, hr, hbits, he, houtputs, by decide⟩

end Session

end LogicCircuit
