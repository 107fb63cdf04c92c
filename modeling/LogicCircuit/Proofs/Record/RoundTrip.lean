import LogicCircuit.Proofs.Lowering.Layout
import LogicCircuit.Proofs.Record.Json
import LogicCircuit.Proofs.Record.Rebuild

/-!
# Circuits survive being saved and loaded

The text of a circuit is read as its record, and the circuit of the record is the circuit itself
without its marks. Nothing but a loop stands in the way.

Results:
* `WellFormed.fits_record`: every number of a well-formed circuit fits the file, as far as its
  positions do.
* `drawable_addFormulas`: the positions of a circuit of formulas do.
* `loadText_saved`: loading a saved circuit is building it up from its record.
* `reloads_of_reachable`: what loading the saved text of a circuit comes to.
-/

namespace LogicCircuit.Circuit

variable {c : Circuit}

/-- Every gate is drawn at a point with coordinates of 32 bits. A circuit file keeps no others,
while a coordinate of a circuit is any integer. -/
def Drawable (c : Circuit) : Prop :=
  ∀ g ∈ c.gates, (-2147483648 ≤ g.position.x ∧ g.position.x ≤ 2147483647) ∧
    -2147483648 ≤ g.position.y ∧ g.position.y ≤ 2147483647

/-- A formula would have to have more than 21474840 levels to be drawn beyond 32 bits. -/
theorem drawable_addFormulas {fs : List Formula} (hn : (fs.map Formula.size).sum ≤ idBound)
    (hh : ∀ f ∈ fs, f.height ≤ 21474840) : (empty.addFormulas fs).2.Drawable := by
  intro g hg
  rw [addFormulas_eq fs (fun _ h => absurd h List.not_mem_nil) (by simpa [empty] using hn)] at hg
  obtain ⟨f, hf, d, hg⟩ := Formula.exists_mem_placed hg
  have hheight := hh f hf
  have hpos := f.height_pos
  have hbounds := Formula.bounds_placed hg
  unfold operandShift operandSpread rootPosition at hbounds
  lia

/-! ## Texts of circuits -/

theorem WellFormed.le_of_mem_ids (hc : c.WellFormed) {id : GateId} (h : id ∈ c.ids) :
    id ≤ 4294967295 := ((hc.lt_nextId h).trans_le hc.bounded).le

theorem WellFormed.fits_record (hc : c.WellFormed) (hd : c.Drawable) : c.record.Fits := by
  refine ⟨fun r hr => ?_, fun r hr => ?_⟩
  · obtain ⟨g, hg, rfl⟩ := List.mem_map.mp hr
    refine ⟨hc.le_of_mem_ids (mem_ids_of_mem hg), fun d hmem => ?_, (hd g hg).1, (hd g hg).2⟩
    exact hc.le_of_mem_ids (hc.input_mem hg (List.mem_filterMap.mpr ⟨_, hmem, rfl⟩))
  · obtain ⟨w, hw, rfl⟩ := List.mem_map.mp hr
    obtain ⟨g, hg, -, hs⟩ := (hc.wired _ _ _).mp (List.mem_map_of_mem (f := Wire.ends) hw)
    have hslot : w.slot < g.kind.arity := hc.arity g hg ▸ Gate.driver?_lt hs
    have harity : g.kind.arity ≤ 2 := by cases g.kind <;> simp [GateKind.arity]
    refine ⟨hc.le_of_mem_ids (hc.sourced w hw), hc.le_of_mem_ids (hc.target_mem hw), ?_⟩
    show w.slot ≤ 18446744073709551615
    omega

theorem loadText_saved (hc : c.WellFormed) (hd : c.Drawable) :
    loadText c.saved = c.record.circuit := by
  have hread := CircuitRecord.ofText?_pretty (hc.fits_record hd)
  obtain ⟨j, hj, hr⟩ := Option.bind_eq_some_iff.mp hread
  unfold loadText load saved
  rw [show Json.ofRunes? (Text.runes c.record.json.pretty) = some j from hj]
  dsimp only
  rw [ofJson, hr]

/-! ## Loading what was saved -/

theorem record_reloaded (c : Circuit) : c.reloaded.record = c.record := by
  unfold record reloaded clearActivity
  simp only [List.map_map]
  rfl

theorem shape_eq (c : Circuit) :
    c.shape = (c.gates.map Gate.frame).map fun f => (f.2.1, f.2.2.map (·.map c.rank?)) := by
  unfold shape
  rw [List.map_map]
  rfl

theorem shape_of_frames {d : Circuit} (h : d.gates.map Gate.frame = c.gates.map Gate.frame) :
    d.shape = c.shape := by
  have hrank : d.rank? = c.rank? := by
    funext id
    rw [rank?, rank?, ids_of_frames h]
  rw [shape_eq, shape_eq, h, hrank]

theorem sameStructure_reloaded (c : Circuit) : c.reloaded.sameStructure c = true := by
  have hwires : c.reloaded.wires.length = c.wires.length := List.length_map _
  unfold sameStructure
  rw [hwires, shape_of_frames c.frames_reloaded]
  simp

/-- What a circuit is after it was saved and loaded. -/
structure ReloadedAs (c d : Circuit) : Prop where
  /-- Identifiers, kinds, slots, values and positions are the same. -/
  gates : d.gates = c.gates.map fun g => { g with active := false }
  /-- The wires are the same, in the same order. -/
  wires : d.wires = c.wires.map fun w => { w with active := false }
  /-- The identifier after the greatest one is given out next, zero if there is no gate. -/
  nextId : d.nextId = match c.ids.max? with
    | some id => id + 1
    | none => 0
  record : d.record = c.record
  sameStructure : d.sameStructure c = true

/-- What comes of saving a circuit and loading it. -/
structure Reloads (c : Circuit) : Prop where
  /-- The text that is saved holds the record of the circuit. -/
  saved : (Json.ofText? c.saved).bind CircuitRecord.ofJson? = some c.record
  accepted : (∃ d, loadText c.saved = .ok d) ↔ c.Acyclic
  reloaded : ∀ d, loadText c.saved = .ok d → c.ReloadedAs d
  refused : ¬ c.Acyclic → ∃ e, loadText c.saved = .error (.loop e)

/-- A circuit over letters of the alphabet comes back when it is saved and loaded, unless it has a
loop. -/
theorem reloads_of_reachable (hc : c.Reachable) (hl : ∀ l ∈ c.letters, l.isAlpha = true)
    (hd : c.Drawable) : c.Reloads := by
  have hwf := hc.wellFormed
  have hload := loadText_saved hwf hd
  have hok : ∀ d, loadText c.saved = .ok d → c.Acyclic ∧ d = c.reloaded := by
    intro d h
    by_cases ha : c.Acyclic
    · rw [hload, circuit_record_of_acyclic hwf hl ha] at h
      cases h
      exact ⟨ha, rfl⟩
    · obtain ⟨e, he⟩ := circuit_record_of_looped hwf hl ha
      rw [hload, he] at h
      cases h
  refine ⟨CircuitRecord.ofText?_pretty (hwf.fits_record hd), ⟨?_, fun ha => ?_⟩, fun d h => ?_,
    fun ha => ?_⟩
  · rintro ⟨d, h⟩
    exact (hok d h).1
  · exact ⟨c.reloaded, hload.trans (circuit_record_of_acyclic hwf hl ha)⟩
  · obtain ⟨-, rfl⟩ := hok d h
    exact ⟨rfl, rfl, rfl, c.record_reloaded, c.sameStructure_reloaded⟩
  · obtain ⟨e, he⟩ := circuit_record_of_looped hwf hl ha
    exact ⟨e, hload.trans he⟩

/-- Gates were removed between and behind the others, the wires came in another order than the
slots, and the propagation has reached the output. -/
def gapped : Circuit :=
  [Edit.addGate (.var 'a') { x := -40, y := 20 }, .addGate .not {}, .addGate (.binary .xor) {},
    .addGate (.const true) {}, .addGate (.var 'b') {}, .connect 3 2 1, .connect 1 2 0,
    .removeGate 1, .connect 0 2 0, .removeGate 4, .setInput 'A' (.known true), .advance .idle,
    .advance ⟨some 0⟩].foldl Edit.apply empty

/-- Two inverters, each of which drives the other. -/
def feedback : Circuit :=
  [Edit.addGate .not {}, .addGate .not {}, .connect 0 1 0, .connect 1 0 0].foldl Edit.apply empty

theorem reloads_of_reachable_gapped_and_feedback :
    (gapped.Reachable ∧ gapped.Reloads ∧
      ∃ d, loadText gapped.saved = .ok d ∧ gapped.nextId = 5 ∧ d.nextId = 4) ∧
    feedback.Reachable ∧ feedback.Reloads ∧
      ∃ e, loadText feedback.saved = .error (.loop e) := by
  have hg : gapped.Reachable := Reachable.empty.edits
    ⟨(by decide : 0 < idBound), (by decide : 1 < idBound), (by decide : 2 < idBound),
      (by decide : 3 < idBound), (by decide : 4 < idBound), trivial, trivial, trivial, trivial,
      trivial, trivial, trivial, trivial, trivial⟩
  have hf : feedback.Reachable := Reachable.empty.edits
    ⟨(by decide : 0 < idBound), (by decide : 1 < idBound), trivial, trivial, trivial⟩
  have hgr : gapped.Reloads :=
    reloads_of_reachable hg (List.all_eq_true.mp (by decide)) (by unfold Drawable; decide)
  have hfr : feedback.Reloads :=
    reloads_of_reachable hf (List.all_eq_true.mp (by decide)) (by unfold Drawable; decide)
  have hga : gapped.Acyclic := by
    have hplan : gapped.plan = .ok [gapped.gates[0], gapped.gates[2], gapped.gates[1]] := by decide
    exact acyclic_of_plan hg.wellFormed hplan
  have hfa : ¬ feedback.Acyclic := by
    intro h
    refine h 0 (.tail (b := 1) (.single ?_) ?_)
    · exact ⟨_, List.mem_cons_self, rfl, by decide⟩
    · exact ⟨_, List.mem_cons_of_mem _ List.mem_cons_self, rfl, by decide⟩
  obtain ⟨d, hd⟩ := hgr.accepted.mpr hga
  exact ⟨⟨hg, hgr, d, hd, by decide, (hgr.reloaded d hd).nextId.trans (by decide)⟩, hf, hfr,
    hfr.refused hfa⟩

end LogicCircuit.Circuit
