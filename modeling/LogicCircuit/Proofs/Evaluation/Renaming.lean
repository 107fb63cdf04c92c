import LogicCircuit.Circuit.Registry
import LogicCircuit.Proofs.Evaluation.Exact

/-!
# Renaming gates

Identifiers only tell gates apart. If the gates of one circuit are those of another one under other
names, in the same order and each with its inputs in the same slots, then the traversal takes them
in the same order, meets the same loop, and computes the same values.

Results:
* `visit_renames`, `plan_renames`: the traversal comes to the same under other names.
* `sinks_of_renames`, `evaluate_renames`: so do the outputs and the evaluation.
* `evaluate_of_skeleton`: an evaluation does not read values, marks and positions.
-/

namespace LogicCircuit

/-! ## Gates under other names -/

/-- The gate with the given names for the identifiers of gates. -/
def Gate.rename (r : GateId → GateId) (g : Gate) : Gate :=
  { g with id := r g.id, slots := g.slots.map (·.map r) }

/-- The gates of the second list are those of the first one under other names, as far as evaluation
reads them. -/
def Renames (r : GateId → GateId) (gates gates' : List Gate) : Prop :=
  List.Forall₂ (fun g g' => g'.frame = (g.rename r).frame) gates gates'

namespace Gate

variable {r : GateId → GateId} {g g' : Gate}

@[simp] theorem rename_id (g : Gate) : g.rename (fun i => i) = g := by
  simp [rename]

theorem id_of_frame (h : g'.frame = g.frame) : g'.id = g.id := congrArg (·.1) h

theorem kind_of_frame (h : g'.frame = g.frame) : g'.kind = g.kind := congrArg (·.2.1) h

theorem inputs_of_frame (h : g'.frame = g.frame) : g'.inputs = g.inputs :=
  congrArg (fun p => p.2.2.filterMap fun s => s) h

theorem compute_eq_of_frame (h : g'.frame = g.frame) (s : Assignment) (value : GateId → Value) :
    g'.compute s value = g.compute s value := by
  simp only [frame, Prod.mk.injEq] at h
  unfold compute inputValue driver?
  rw [h.2.1, h.2.2]

theorem inputs_rename (r : GateId → GateId) (g : Gate) : (g.rename r).inputs = g.inputs.map r := by
  unfold inputs rename
  rw [List.filterMap_map, List.map_filterMap]
  rfl

theorem driver?_rename (r : GateId → GateId) (g : Gate) (slot : Nat) :
    (g.rename r).driver? slot = (g.driver? slot).map r := by
  unfold driver? rename
  rw [List.getElem?_map]
  cases g.slots[slot]? with
  | none => rfl
  | some driver => rfl

/-- A gate under another name computes the same from the same values. -/
theorem compute_rename {value value' : GateId → Value} (h : ∀ id, value' (r id) = value id)
    (s : Assignment) : (g.rename r).compute s value' = g.compute s value := by
  have hin : ∀ slot, (g.rename r).inputValue value' slot = g.inputValue value slot := by
    intro slot
    unfold inputValue
    rw [driver?_rename]
    cases g.driver? slot with
    | none => rfl
    | some d => exact h d
  unfold compute
  rw [hin 0, hin 1]
  rfl

end Gate

namespace Renames

variable {r : GateId → GateId} {gates gates' : List Gate}

theorem snoc (h : Renames r gates gates') {g g' : Gate} (hg : g'.frame = (g.rename r).frame) :
    Renames r (gates ++ [g]) (gates' ++ [g']) :=
  List.rel_append h (.cons hg .nil)

theorem map_id (h : Renames r gates gates') : gates'.map (·.id) = (gates.map (·.id)).map r := by
  induction h with
  | nil => rfl
  | cons hg _ ih =>
    rw [List.map_cons, ih, Gate.id_of_frame hg]
    rfl

theorem map_kind (h : Renames r gates gates') : gates'.map (·.kind) = gates.map (·.kind) := by
  induction h with
  | nil => rfl
  | cons hg _ ih =>
    rw [List.map_cons, ih, Gate.kind_of_frame hg]
    rfl

/-- Gates selected by their kinds keep corresponding to each other. -/
theorem filter_kind (h : Renames r gates gates') (p : GateKind → Bool) :
    Renames r (gates.filter (p ·.kind)) (gates'.filter (p ·.kind)) := by
  induction h with
  | nil => exact .nil
  | @cons g g' gates gates' hg _ ih =>
    have hkind : g'.kind = g.kind := (Gate.kind_of_frame hg).trans rfl
    rw [List.filter_cons, List.filter_cons, hkind]
    split_ifs
    · exact .cons hg ih
    · exact ih

theorem any_id (hr : Function.Injective r) (h : Renames r gates gates') (id : GateId) :
    gates'.any (·.id == r id) = gates.any (·.id == id) := by
  rw [Bool.eq_iff_iff]
  have hmem : r id ∈ gates'.map (·.id) ↔ id ∈ gates.map (·.id) := by
    rw [h.map_id, List.mem_map_of_injective hr]
  simpa using hmem

theorem find?_id (hr : Function.Injective r) (h : Renames r gates gates') (id : GateId) :
    Option.Rel (fun g g' => g'.frame = (g.rename r).frame) (gates.find? (·.id == id))
      (gates'.find? (·.id == r id)) := by
  induction h with
  | nil => exact .none
  | @cons g g' gates gates' hg _ ih =>
    have hid : g'.id = r g.id := Gate.id_of_frame hg
    by_cases he : g.id = id
    · rw [List.find?_cons_of_pos (by simpa using he),
        List.find?_cons_of_pos (by simpa [hid] using congrArg r he)]
      exact .some hg
    · rw [List.find?_cons_of_neg (by simpa using he),
        List.find?_cons_of_neg (by simpa [hid] using fun hn => he (hr hn))]
      exact ih

theorem any_inputs (hr : Function.Injective r) (h : Renames r gates gates') (id : GateId) :
    gates'.any (·.inputs.contains (r id)) = gates.any (·.inputs.contains id) := by
  induction h with
  | nil => rfl
  | @cons g g' gates gates' hg _ ih =>
    have hinputs : g'.inputs.contains (r id) = g.inputs.contains id := by
      rw [Gate.inputs_of_frame hg, Gate.inputs_rename, Bool.eq_iff_iff, List.contains_iff_mem,
        List.contains_iff_mem, List.mem_map_of_injective hr]
    rw [List.any_cons, List.any_cons, hinputs, ih]

/-- Gates with the same identifiers, kinds and slots keep their names. -/
theorem of_frames (h : gates'.map Gate.frame = gates.map Gate.frame) :
    Renames (fun i => i) gates gates' := by
  have heq : List.Forall₂ Eq (gates.map Gate.frame) (gates'.map Gate.frame) :=
    List.forall₂_eq_eq_eq ▸ h.symm
  rw [List.forall₂_map_left_iff, List.forall₂_map_right_iff] at heq
  exact heq.imp fun g g' he => by rw [Gate.rename_id, he]

end Renames

/-! ## The traversal -/

namespace Circuit

variable {r : GateId → GateId} {c d : Circuit}

/-- The second traversal comes to the same as the first one, under other names. -/
inductive SameOutcome (r : GateId → GateId) :
    Except LoopError (List Gate) → Except LoopError (List Gate) → Prop
  | finished {done done' : List Gate} (h : Renames r done done') :
    SameOutcome r (.ok done) (.ok done')
  | loop (id : GateId) : SameOutcome r (.error ⟨id⟩) (.error ⟨r id⟩)

theorem SameOutcome.bind {x y : Except LoopError (List Gate)}
    {f f' : List Gate → Except LoopError (List Gate)} (h : SameOutcome r x y)
    (hf : ∀ done done', Renames r done done' → SameOutcome r (f done) (f' done')) :
    SameOutcome r (x >>= f) (y >>= f') := by
  cases h with
  | finished h => exact hf _ _ h
  | loop id => exact .loop id

theorem SameOutcome.foldlM {step step' : List Gate → GateId → Except LoopError (List Gate)}
    (hstep : ∀ done done' id, Renames r done done' →
      SameOutcome r (step done id) (step' done' (r id)))
    (ids : List GateId) {done done' : List Gate} (h : Renames r done done') :
    SameOutcome r (ids.foldlM step done) ((ids.map r).foldlM step' done') := by
  induction ids generalizing done done' with
  | nil => exact .finished h
  | cons id ids ih =>
    rw [List.map_cons, List.foldlM_cons, List.foldlM_cons]
    exact (hstep done done' id h).bind fun _ _ => ih

section Traversal

variable (hr : Function.Injective r) (hg : Renames r c.gates d.gates)
include hr hg

theorem visit_renames (fuel : Nat) (path : List GateId) {done done' : List Gate}
    (h : Renames r done done') (id : GateId) :
    SameOutcome r (c.visit fuel path done id) (d.visit fuel (path.map r) done' (r id)) := by
  induction fuel generalizing path done done' id with
  | zero => exact .finished h
  | succ fuel ih =>
    have hpath : (path.map r).contains (r id) = path.contains id := by
      rw [Bool.eq_iff_iff, List.contains_iff_mem, List.contains_iff_mem,
        List.mem_map_of_injective hr]
    have hgate : Option.Rel _ (c.gate? id) (d.gate? (r id)) := hg.find?_id hr id
    rw [visit, visit, h.any_id hr, hpath]
    split_ifs with hdone hloop
    · exact .finished h
    · exact .loop id
    · generalize c.gate? id = x at hgate ⊢
      generalize d.gate? (r id) = y at hgate ⊢
      cases hgate with
      | none => exact .finished h
      | @some g g' hframe =>
        have hinputs : g'.inputs = g.inputs.map r :=
          (Gate.inputs_of_frame hframe).trans (g.inputs_rename r)
        have hfold := SameOutcome.foldlM (fun done done' d h => ih (id :: path) h d) g.inputs h
        rw [← hinputs] at hfold
        exact hfold.bind fun _ _ h' => .finished (h'.snoc hframe)

theorem plan_renames : SameOutcome r c.plan d.plan := by
  have hlength : d.gates.length = c.gates.length := (List.Forall₂.length_eq hg).symm
  unfold plan
  rw [show d.ids = c.ids.map r from hg.map_id, hlength]
  exact SameOutcome.foldlM (fun done done' id h => visit_renames hr hg _ [] h id) c.ids .nil

end Traversal

/-! ## The evaluation -/

theorem valuesAlong_renames (hr : Function.Injective r) (s : Assignment) {gates gates' : List Gate}
    (h : Renames r gates gates') :
    valuesAlong s gates' = (valuesAlong s gates).map fun p => (r p.1, p.2) := by
  -- the values computed before the gates of the lists are arbitrary, but the same
  have hfold : ∀ values : List (GateId × Value),
      gates'.foldl (fun values g => (g.id, g.compute s (Evaluation.valueIn values)) :: values)
          (values.map fun p => (r p.1, p.2)) =
        (gates.foldl (fun values g => (g.id, g.compute s (Evaluation.valueIn values)) :: values)
          values).map fun p => (r p.1, p.2) := by
    induction h with
    | nil => exact fun _ => rfl
    | @cons g g' gates gates' hg _ ih =>
      intro values
      have hvalue : ∀ id, Evaluation.valueIn (values.map fun p => (r p.1, p.2)) (r id) =
          Evaluation.valueIn values id := by
        intro id
        rw [Evaluation.valueIn, lookup_map_injective hr, Evaluation.valueIn]
      rw [List.foldl_cons, List.foldl_cons, Gate.id_of_frame hg, Gate.compute_eq_of_frame hg,
        Gate.compute_rename hvalue]
      exact ih ((g.id, g.compute s (Evaluation.valueIn values)) :: values)
  exact hfold []

end Circuit

namespace Evaluation

variable {r : GateId → GateId}

/-- The values under other names. -/
def rename (r : GateId → GateId) (e : Evaluation) : Evaluation :=
  { values := e.values.map fun p => (r p.1, p.2), sinks := e.sinks.map r }

@[simp] theorem rename_id (e : Evaluation) : e.rename (fun i => i) = e := by
  simp [rename]

theorem value_rename (hr : Function.Injective r) (e : Evaluation) (id : GateId) :
    (e.rename r).value (r id) = e.value id := by
  unfold value valueIn rename
  rw [lookup_map_injective hr]

theorem outputs_rename (hr : Function.Injective r) (e : Evaluation) :
    (e.rename r).outputs = e.outputs := by
  show (e.sinks.map r).map (e.rename r).value = e.sinks.map e.value
  rw [List.map_map]
  exact List.map_congr_left fun id _ => value_rename hr e id

end Evaluation

namespace Circuit

variable {r : GateId → GateId} {c d : Circuit}

theorem sinks_of_renames (hc : c.WellFormed) (hd : d.WellFormed) (hr : Function.Injective r)
    (hg : Renames r c.gates d.gates) : d.sinks = c.sinks.map r := by
  have hdrives : ∀ id, d.drives (r id) = c.drives id := by
    intro id
    rw [hd.drives_eq, hc.drives_eq, hg.any_inputs hr]
  unfold sinks
  rw [show d.ids = c.ids.map r from hg.map_id, List.filter_map]
  exact congrArg (List.map r) (List.filter_congr fun id _ => congrArg (!·) (hdrives id))

theorem evaluateAlong_renames (hr : Function.Injective r) (hs : d.sinks = c.sinks.map r)
    {gates gates' : List Gate} (h : Renames r gates gates') (s : Assignment) :
    d.evaluateAlong gates' s = (c.evaluateAlong gates s).rename r := by
  unfold evaluateAlong
  rw [valuesAlong_renames hr s h, hs]
  rfl

/-- A circuit whose gates and outputs are those of another one under other names has the same
evaluation under these names, or the same loop. -/
theorem evaluate_renames (hr : Function.Injective r) (hg : Renames r c.gates d.gates)
    (hs : d.sinks = c.sinks.map r) (s : Assignment) : d.evaluate s =
      match c.evaluate s with
      | .ok e => .ok (e.rename r)
      | .error e => .error ⟨r e.gate⟩ := by
  have hplan := plan_renames hr hg
  unfold evaluate
  generalize c.plan = x at hplan ⊢
  generalize d.plan = y at hplan ⊢
  cases hplan with
  | loop id => rfl
  | finished h => exact congrArg Except.ok (evaluateAlong_renames hr hs h s)

theorem letters_of_renames (hg : Renames r c.gates d.gates) : d.letters = c.letters := by
  have hletters : ∀ e : Circuit,
      e.letters = ((e.gates.map (·.kind)).filterMap (·.letter?)).eraseDups := by
    intro e
    rw [List.filterMap_map]
    rfl
  rw [hletters, hletters, hg.map_kind]

theorem frames_of_skeleton (h : d.skeleton = c.skeleton) :
    d.gates.map Gate.frame = c.gates.map Gate.frame := congrArg (·.1) h

theorem sinks_of_skeleton (h : d.skeleton = c.skeleton) : d.sinks = c.sinks := by
  have hdrives : ∀ (e : Circuit) (id : GateId),
      e.drives id = (e.wires.map Wire.ends).any (·.1 == id) := by
    intro e id
    rw [List.any_map]
    rfl
  have hwires : d.wires.map Wire.ends = c.wires.map Wire.ends := congrArg (·.2.1) h
  unfold sinks
  simp only [hdrives, hwires, ids_of_frames (frames_of_skeleton h)]

theorem letters_of_skeleton (h : d.skeleton = c.skeleton) : d.letters = c.letters :=
  letters_of_renames (.of_frames (frames_of_skeleton h))

/-- An evaluation does not read values, marks and positions. -/
theorem evaluate_of_skeleton (h : d.skeleton = c.skeleton) (s : Assignment) :
    d.evaluate s = c.evaluate s := by
  have hsinks : d.sinks = c.sinks.map fun i => i := by rw [sinks_of_skeleton h, List.map_id']
  rw [evaluate_renames Function.injective_id (.of_frames (frames_of_skeleton h)) hsinks s]
  cases c.evaluate s with
  | error e => rfl
  | ok e => exact congrArg Except.ok e.rename_id

end Circuit

end LogicCircuit
