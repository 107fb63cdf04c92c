import LogicCircuit.Proofs.Record.Description

/-!
# Circuits from their records

The record of a circuit describes the circuit itself, without its marks and with the next identifier
counted anew. So nothing but a loop keeps the circuit from being made again.

Results:
* `GateKind.ofText?_text`: the name of a kind is read as that kind.
* `WellFormed.describes_record`: which circuit the record of a circuit describes.
* `circuit_record_of_acyclic`, `circuit_record_of_looped`: the circuit of the record.
-/

namespace LogicCircuit

/-! ## Names of kinds -/

/-- A capital of the alphabet is its own capital. -/
theorem Text.capital_of_isUpper {c : Char} (h : c.isUpper = true) : Text.capital c = [c] := by
  unfold capital
  split
  case h_11 => rw [Char.toUpper_eq_of_not_isLower (Char.not_isLower_of_isUpper h)]
  all_goals cases h

theorem GateKind.ofText?_text {k : GateKind} (hn : k.normalized = k)
    (hl : ∀ letter, k = .var letter → letter.isAlpha = true) : ofText? k.text = some k := by
  cases k with
  | const b => cases b <;> decide
  | not => decide
  | binary op => cases op <;> decide
  | var letter =>
    have hup : letter.toUpper = letter := by simpa [normalized] using hn
    have halpha := hl letter rfl
    have hcapital : letter.isUpper = true := by
      have := letter.isUpper_toUpper_eq_isAlpha
      rwa [hup, halpha] at this
    have hname : Text.capitals (Text.trim (text (.var letter)).toList) =
        ['V', 'A', 'R', '('] ++ Text.capital letter ++ [')'] := by
      rw [text, String.toList_ofList]
      rfl
    rw [ofText?, hname, Text.capital_of_isUpper hcapital]
    show ofLetter? letter = some (.var letter)
    rw [ofLetter?, if_pos halpha, hup]

/-! ## The next identifier -/

/-- The identifier after the greatest of some identifiers. -/
def Circuit.idAfter (ids : List GateId) : GateId :=
  match ids.max? with
  | some id => id + 1
  | none => 0

theorem Circuit.idAfter_append (ids : List GateId) (id : GateId) :
    idAfter (ids ++ [id]) = max (idAfter ids) (id + 1) := by
  cases ids with
  | nil => exact (Nat.zero_max _).symm
  | cons a ids =>
    unfold idAfter
    rw [List.cons_append, List.max?_cons', List.max?_cons', List.foldl_append]
    exact (Nat.add_max_add_right _ _ 1).symm

theorem Circuit.idAfter_le_iff {ids : List GateId} {n : Nat} :
    idAfter ids ≤ n ↔ ∀ id ∈ ids, id < n := by
  induction ids using List.reverseRecOn with
  | nil => simp [idAfter]
  | append_singleton ids id ih =>
    rw [idAfter_append, max_le_iff, ih]
    simp [or_imp, forall_and]

/-! ## The whole circuit -/

namespace Circuit

variable {c : Circuit}

/-- What becomes of a circuit that is stored and loaded: its marks are gone, and the next
identifier is the one after the greatest in use. -/
def reloaded (c : Circuit) : Circuit := { c.clearActivity with nextId := idAfter c.ids }

theorem frames_reloaded (c : Circuit) :
    c.reloaded.gates.map Gate.frame = c.gates.map Gate.frame := by
  unfold reloaded clearActivity
  rw [List.map_map]
  rfl

theorem acyclic_reloaded : c.reloaded.Acyclic ↔ c.Acyclic :=
  acyclic_iff_of_frames c.frames_reloaded

theorem WellFormed.reloaded (hc : c.WellFormed) : c.reloaded.WellFormed := by
  have hcleared : c.clearActivity.WellFormed := hc.of_skeleton_eq c.skeleton_clearActivity
  have hids : c.clearActivity.ids = c.ids := ids_of_frames c.frames_reloaded
  refine { hcleared with below := fun g hg => ?_, bounded := ?_ }
  · exact idAfter_le_iff.mp le_rfl g.id (hids ▸ mem_ids_of_mem hg)
  · refine le_trans (idAfter_le_iff.mpr fun id hid => ?_) hc.bounded
    obtain ⟨g, hg, rfl⟩ := mem_ids.mp hid
    exact hc.below g hg

theorem gate?_record (hc : c.WellFormed) (hl : ∀ l ∈ c.letters, l.isAlpha = true) {g : Gate}
    (hg : g ∈ c.gates) : g.record.gate? = some { g with active := false } := by
  have hread : GateKind.ofText? g.record.kind = some g.kind :=
    GateKind.ofText?_text (hc.normalized g hg) fun letter hk =>
      hl letter (mem_letters.mpr ⟨g, hg, hk⟩)
  rw [GateRecord.gate?, hread]
  rfl

/-- The record of a circuit describes the circuit without its marks. -/
theorem WellFormed.describes_record (hc : c.WellFormed) (hl : ∀ l ∈ c.letters, l.isAlpha = true) :
    c.record.Describes c.reloaded := by
  have hids : c.reloaded.ids = c.ids := ids_of_frames c.frames_reloaded
  refine ⟨hc.reloaded, ⟨?_, ?_⟩, ?_, ?_, ?_⟩
  · intro x hx
    obtain ⟨g, hg, rfl⟩ := List.mem_map.mp hx
    have hk := (GateRecord.gate?_eq_some (gate?_record hc hl hg)).1
    exact ⟨⟨g.kind, hk, hc.arity g hg⟩, (hc.below g hg).trans_le hc.bounded⟩
  · refine .of_eq ?_
    show (c.gates.map _).map _ = (c.gates.map Gate.record).map _
    rw [List.map_map, List.map_map]
    refine List.map_congr_left fun g hg => ?_
    rw [Function.comp_apply, Function.comp_apply, gate?_record hc hl hg]
    rfl
  · intro x hx
    obtain ⟨g, hg, rfl⟩ := List.mem_map.mp hx
    have hgate : c.reloaded.gate? g.id = some { g with active := false } :=
      hc.reloaded.gate?_eq_some.mpr ⟨List.mem_map_of_mem hg, rfl⟩
    rw [show g.record.id = g.id from rfl, hgate]
    rfl
  · show c.wires.map _ = (c.wires.map Wire.record).map _
    rw [List.map_map]
    rfl
  · intro n
    rw [hids]
    exact idAfter_le_iff

theorem circuit_record_of_acyclic (hc : c.WellFormed) (hl : ∀ l ∈ c.letters, l.isAlpha = true)
    (ha : c.Acyclic) : c.record.circuit = .ok c.reloaded :=
  (hc.describes_record hl).circuit_of_acyclic (acyclic_reloaded.mpr ha)

theorem circuit_record_of_looped (hc : c.WellFormed) (hl : ∀ l ∈ c.letters, l.isAlpha = true)
    (ha : ¬ c.Acyclic) : ∃ e, c.record.circuit = .error (.loop e) :=
  (hc.describes_record hl).circuit_of_looped (mt acyclic_reloaded.mp ha)

end Circuit

end LogicCircuit
