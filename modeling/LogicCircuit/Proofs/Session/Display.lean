import LogicCircuit.Proofs.Circuit.Inputs
import LogicCircuit.Proofs.Session.Stepping

/-!
# What the gates show after an evaluation

An evaluation stores its values in all gates but those of letters, which keep what they carry. It
gives a letter the first bit that one of its gates carries. So all gates show the evaluation if the
gates of each letter agree. They do until a letter that is set gets another gate or a circuit is
brought in from outside; then a gate may keep showing a value that the gates behind it were not
computed from.

Results:
* `Undisturbed.inputsAgree`: the gates of each letter agree as long as nothing of that happens.
* `evaluate_displays`: what the gates show, and when that is the evaluation.
-/

namespace LogicCircuit

/-! ## Stored values -/

namespace Circuit

variable {c : Circuit}

/-- The value that a gate carries, unset if there is no such gate. -/
def stored (c : Circuit) (id : GateId) : Value := ((c.gate? id).map (·.value)).getD .unset

theorem stored_of_mem (hc : c.WellFormed) {g : Gate} (hg : g ∈ c.gates) :
    c.stored g.id = g.value := by
  rw [stored, hc.gate?_eq_some.mpr ⟨hg, rfl⟩]
  rfl

/-- The gate with the value of an evaluation, unless it stands for a letter. -/
def withValue (value : GateId → Value) (g : Gate) : Gate :=
  if g.kind.letter?.isSome then g else { g with value := value g.id }

theorem gates_applyValues (c : Circuit) (value : GateId → Value) :
    (c.applyValues value).gates = c.gates.map (withValue value) := by
  refine List.map_congr_left fun g _ => ?_
  unfold withValue
  cases hk : g.kind <;> simp [GateKind.letter?]

theorem inputAssignment_applyValues (c : Circuit) (value : GateId → Value) :
    (c.applyValues value).inputAssignment = c.inputAssignment := by
  have hread : ∀ (s : Assignment) (g : Gate), readInput s (withValue value g) = readInput s g := by
    intro s g
    unfold withValue readInput
    cases hk : g.kind <;> simp [GateKind.letter?, hk]
  unfold inputAssignment
  rw [gates_applyValues, List.foldl_map]
  simp only [hread]

theorem frame_withValue (value : GateId → Value) (g : Gate) :
    (withValue value g).frame = g.frame := by
  unfold withValue
  split_ifs <;> rfl

theorem withValue_of_letter (value : GateId → Value) {g : Gate} {letter : Char}
    (h : g.kind = .var letter) : withValue value g = g := by
  simp [withValue, GateKind.letter?, h]

/-- A gate shows the values that are stored, if it is not the gate of a letter that carries
something else. -/
theorem value_withValue_eq_iff {value : GateId → Value} {g : Gate} :
    (withValue value g).value = value g.id ↔
      ∀ letter, g.kind = .var letter → g.value = value g.id := by
  unfold withValue
  cases hk : g.kind <;> simp [GateKind.letter?]

theorem inputsAgree_applyValues_iff (c : Circuit) (value : GateId → Value) :
    (c.applyValues value).InputsAgree ↔ c.InputsAgree := by
  refine ⟨fun h => h.of_gates fun g hg letter hk => ⟨g, ?_, rfl, rfl⟩, fun h => h.applyValues value⟩
  rw [gates_applyValues, ← withValue_of_letter value hk]
  exact List.mem_map_of_mem hg

section Exact

variable {values : Evaluation}

/-- All gates show an evaluation of the inputs that they carry exactly if the gates of each letter
carry the same value. -/
theorem shown_iff (hc : c.WellFormed) (h : c.ExactUnder c.inputAssignment values) :
    (∀ g ∈ (c.applyValues values.value).gates, g.value = values.value g.id) ↔ c.InputsAgree := by
  have hletter : ∀ letter, ∀ g ∈ c.gates, g.kind = .var letter →
      values.value g.id = c.inputAssignment.value letter := by
    intro letter g hg hk
    rw [Gate.equation_iff.mp (h.solves g hg), Gate.compute, hk]
  rw [inputsAgree_iff hc, gates_applyValues, List.forall_mem_map]
  constructor
  · intro hshown letter g hg hk
    have := hshown g hg
    rwa [withValue_of_letter values.value hk, hletter letter g hg hk] at this
  · intro hagree g hg
    rw [Gate.id_of_frame (frame_withValue values.value g), value_withValue_eq_iff]
    intro letter hk
    rw [hagree letter g hg hk, hletter letter g hg hk]

/-- What the gates carry then solves their equations exactly if the gates of each letter carry the
same value. -/
theorem consistent_iff (hc : c.WellFormed) (h : c.ExactUnder c.inputAssignment values) :
    (∀ g ∈ (c.applyValues values.value).gates, g.Equation
      (c.applyValues values.value).inputAssignment (c.applyValues values.value).stored) ↔
        c.InputsAgree := by
  have hd : (c.applyValues values.value).WellFormed :=
    hc.of_skeleton_eq (c.skeleton_applyValues values.value)
  constructor
  · intro hequation
    rw [← c.inputsAgree_applyValues_iff values.value, inputsAgree_iff hd]
    intro letter g hg hk
    have hg' := Gate.equation_iff.mp (hequation g hg)
    rwa [stored_of_mem hd hg, Gate.compute, hk] at hg'
  · intro hagree g hg
    have hstored : ∀ id ∈ c.ids, (c.applyValues values.value).stored id = values.value id := by
      intro id hid
      rw [← ids_of_frames (frames_of_skeleton (c.skeleton_applyValues values.value))] at hid
      obtain ⟨a, ha, rfl⟩ := mem_ids.mp hid
      rw [stored_of_mem hd ha, (shown_iff hc h).mpr hagree a ha]
    rw [gates_applyValues] at hg
    obtain ⟨a, ha, rfl⟩ := List.mem_map.mp hg
    rw [Gate.equation_iff, Gate.id_of_frame (frame_withValue _ a),
      Gate.compute_eq_of_frame (frame_withValue _ a), hstored a.id (mem_ids_of_mem ha),
      inputAssignment_applyValues, Gate.equation_iff.mp (h.solves a ha)]
    exact Gate.compute_congr fun d hmem => (hstored d (hc.input_mem ha hmem)).symm

end Exact

end Circuit

namespace Session

/-! ## Sessions that keep their letters together -/

/-- The session after one edit of its circuit. -/
def edited (s : Session) (e : Circuit.Edit) : Session := (s.edit fun c => ((), e.apply c)).2

/-- The sessions in which no letter that is set gets another gate, and no circuit is brought in. -/
inductive Undisturbed : Session → Prop
  | fresh (limits : Limits) : Undisturbed { limits }
  | compile {s : Session} (hs : Undisturbed s) (text : String) : Undisturbed (s.compile text).2
  | setInput {s : Session} (hs : Undisturbed s) (letter : Char) (value : Value) :
      Undisturbed (s.setInput letter value)
  | evaluate {s : Session} (hs : Undisturbed s) : Undisturbed s.evaluate.2
  | truthTable {s : Session} (hs : Undisturbed s) : Undisturbed s.truthTable.2
  | csv {s : Session} (hs : Undisturbed s) : Undisturbed s.csv.2
  | step {s : Session} (hs : Undisturbed s) : Undisturbed s.step.2
  | reset {s : Session} (hs : Undisturbed s) : Undisturbed s.reset
  | setLimits {s : Session} (hs : Undisturbed s) (limits : Limits) : Undisturbed { s with limits }
  | edit {s : Session} (hs : Undisturbed s) (e : Circuit.Edit) (he : e.KeepsInputs s.circuit) :
      Undisturbed (s.edited e)

theorem Reachable.edited {s : Session} (hs : s.Reachable) (e : Circuit.Edit)
    (he : e.Allowed s.circuit) : (s.edited e).Reachable :=
  hs.edit _ (hs.coherent.circuit.edited e he)

theorem Undisturbed.inputsAgree {s : Session} (hs : s.Undisturbed) : s.circuit.InputsAgree := by
  induction hs with
  | fresh limits => exact fun _ _ hg => absurd hg List.not_mem_nil
  | @compile s _ text ih =>
    unfold Session.compile
    cases h : Circuit.compile text s.limits with
    | error e => exact ih
    | ok c => exact (Circuit.allUnset_of_compile h).inputsAgree
  | setInput _ letter value ih => exact ih.mapInputs _
  | @evaluate s _ ih =>
    unfold Session.evaluate
    cases s.circuit.evaluate s.circuit.inputAssignment with
    | error e => exact ih
    | ok values => exact ih.applyValues values.value
  | @truthTable s _ ih => exact ih.tabulate s.limits
  | @csv s _ ih => exact ih.tabulate s.limits
  | @step s _ ih => exact ih.advance s.propagation
  | reset _ _ => exact fun _ _ hg => absurd hg List.not_mem_nil
  | setLimits _ _ ih => exact ih
  | edit _ e he ih => exact ih.edit he

/-! ## After an evaluation -/

/-- What the gates carry after an evaluation. -/
structure DisplaysExactly (s : Session) (values : Evaluation) : Prop where
  /-- The values are those of the circuit where each letter has the first bit that a gate carries
  for it. -/
  evaluated : s.circuit.ExactUnder s.circuit.inputAssignment values
  inputs : ∀ letter ∈ s.circuit.letters,
    s.circuit.inputAssignment.get? letter = s.circuit.firstBit? letter
  /-- They are stored in all gates but those of letters, and nothing else is changed. -/
  gates : s.evaluate.2.circuit.gates = s.circuit.gates.map (Circuit.withValue values.value)
  /-- All gates carry them if the gates of each letter carried the same value, and only then. -/
  shown : (∀ g ∈ s.evaluate.2.circuit.gates, g.value = values.value g.id) ↔ s.circuit.InputsAgree
  /-- What the gates carry solves their equations in the same case only. -/
  consistent : (∀ g ∈ s.evaluate.2.circuit.gates, g.Equation
    s.evaluate.2.circuit.inputAssignment s.evaluate.2.circuit.stored) ↔ s.circuit.InputsAgree
  /-- Gates of one letter that did not carry the same value still do not. -/
  alike : s.evaluate.2.circuit.InputsAgree ↔ s.circuit.InputsAgree
  undisturbed : s.Undisturbed → s.circuit.InputsAgree

theorem evaluate_eq_ok {s : Session} {values : Evaluation} (h : s.evaluate.1 = .ok values) :
    s.circuit.evaluate s.circuit.inputAssignment = .ok values ∧
      s.evaluate.2.circuit = s.circuit.applyValues values.value := by
  unfold evaluate at h ⊢
  cases hv : s.circuit.evaluate s.circuit.inputAssignment with
  | error e =>
    rw [hv] at h
    cases h
  | ok values' =>
    rw [hv] at h
    cases h
    exact ⟨rfl, rfl⟩

/-- Whatever has been done before, an evaluation that succeeds is shown by all gates exactly if
gates of the same letter carried the same value before. -/
theorem evaluate_displays {s : Session} (hs : s.Reachable) {values : Evaluation}
    (h : s.evaluate.1 = .ok values) : s.DisplaysExactly values := by
  have hc := hs.coherent.circuit.wellFormed
  obtain ⟨he, hafter⟩ := evaluate_eq_ok h
  have hexact := Circuit.exactUnder_of_evaluate hc he
  have hinputs : ∀ letter ∈ s.circuit.letters,
      s.circuit.inputAssignment.get? letter = s.circuit.firstBit? letter :=
    fun letter hl => Circuit.get?_inputAssignment hc (hc.toUpper_letters letter hl)
  refine ⟨hexact, hinputs, ?_, ?_, ?_, ?_, Undisturbed.inputsAgree⟩ <;> rw [hafter]
  · exact s.circuit.gates_applyValues values.value
  · exact Circuit.shown_iff hc hexact
  · exact Circuit.consistent_iff hc hexact
  · exact s.circuit.inputsAgree_applyValues_iff values.value

/-- A letter is set, then gets another gate, and that one drives an inverter. -/
def lateGate : Session :=
  ({} : Session).edited (.addGate (.var 'A') {}) |>.setInput 'A' (.known true)
    |>.edited (.addGate (.var 'A') {}) |>.edited (.addGate .not {}) |>.edited (.connect 1 2 0)

theorem lateGate_reachable : lateGate.Reachable :=
  (Reachable.fresh {}).edited (.addGate (.var 'A') {}) (by decide : 0 < Circuit.idBound)
    |>.setInput 'A' (.known true)
    |>.edited (.addGate (.var 'A') {}) (by decide : 1 < Circuit.idBound)
    |>.edited (.addGate .not {}) (by decide : 2 < Circuit.idBound)
    |>.edited (.connect 1 2 0) trivial

/-- The values of `lateGate`, and of the same session after its letter is set again. -/
def lateValues : Evaluation where
  values := [(2, .known false), (1, .known true), (0, .known true)]
  sinks := [0, 2]

/-- The gate that is added late does not show the bit of its letter, so the inverter behind it does
not show the complement of what that gate shows. -/
theorem lateGate_not_shown :
    ¬ ∀ g ∈ lateGate.evaluate.2.circuit.gates, g.value = lateValues.value g.id := by
  decide

theorem evaluate_displays_lateGate :
    (lateGate.Reachable ∧ lateGate.evaluate.1 = .ok lateValues ∧
      lateGate.DisplaysExactly lateValues ∧ ¬ lateGate.circuit.InputsAgree) ∧
    (lateGate.setInput 'a' (.known true)).Reachable ∧
      (lateGate.setInput 'a' (.known true)).evaluate.1 = .ok lateValues ∧
      (lateGate.setInput 'a' (.known true)).DisplaysExactly lateValues ∧
      ∀ g ∈ (lateGate.setInput 'a' (.known true)).evaluate.2.circuit.gates,
        g.value = lateValues.value g.id := by
  have hr := lateGate_reachable
  have hr' := hr.setInput 'a' (.known true)
  have hd := evaluate_displays hr (by decide : lateGate.evaluate.1 = .ok lateValues)
  have hd' := evaluate_displays hr'
    (by decide : (lateGate.setInput 'a' (.known true)).evaluate.1 = .ok lateValues)
  exact ⟨⟨hr, by decide, hd, fun h => lateGate_not_shown (hd.shown.mpr h)⟩, hr', by decide, hd',
    by decide⟩

/-- An evaluation is not always shown by all gates. -/
theorem not_evaluate_shows : ¬ ∀ s : Session, s.Reachable → ∀ values, s.evaluate.1 = .ok values →
    ∀ g ∈ s.evaluate.2.circuit.gates, g.value = values.value g.id := by
  intro h
  exact lateGate_not_shown (h lateGate lateGate_reachable lateValues (by decide))

end Session

end LogicCircuit
