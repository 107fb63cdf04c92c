import LogicCircuit.Proofs.Except
import LogicCircuit.Proofs.Json.Reading
import LogicCircuit.Record.Json

/-!
# Records survive being written

A record whose numbers fit the widths of a circuit file is what reading its JSON gives.

Results:
* `GateRecord.ofJson?_json`, `WireRecord.ofJson?_json`, `CircuitRecord.ofJson?_json`: each record
  is read from its JSON.
* `CircuitRecord.ofText?_pretty`: so is the text of its JSON.
-/

namespace LogicCircuit

/-! ## Widths -/

/-- The identifiers, slots and coordinates fit the widths of a circuit file. -/
structure GateRecord.Fits (r : GateRecord) : Prop where
  id : r.id ≤ 4294967295
  slots : ∀ d, some d ∈ r.slots → d ≤ 4294967295
  x : -2147483648 ≤ r.x ∧ r.x ≤ 2147483647
  y : -2147483648 ≤ r.y ∧ r.y ≤ 2147483647

structure WireRecord.Fits (r : WireRecord) : Prop where
  source : r.source ≤ 4294967295
  target : r.target ≤ 4294967295
  slot : r.slot ≤ 18446744073709551615

structure CircuitRecord.Fits (r : CircuitRecord) : Prop where
  gates : ∀ g ∈ r.gates, g.Fits
  wires : ∀ w ∈ r.wires, w.Fits

/-! ## Reading what was written -/

theorem mapM_map_eq_self {α β : Type} {write : α → β} {read : β → Option α} {l : List α}
    (h : ∀ a ∈ l, read (write a) = some a) : (l.map write).mapM read = some l :=
  (mapM_map_eq_some (f := id) h).trans (congrArg some l.map_id)

theorem Json.nat?_integer {bound n : Nat} (h : n ≤ bound) :
    (Json.integer n).nat? bound = some n := by
  simp [Json.nat?, h]

theorem coordinateOfJson?_integer {v : Int} (h : -2147483648 ≤ v ∧ v ≤ 2147483647) :
    coordinateOfJson? (.integer v) = some v := if_pos h

theorem Value.ofJson?_json (v : Value) : Value.ofJson? v.json = some v := by
  cases v with
  | unset => rfl
  | known b => cases b <;> rfl

theorem slotOfJson?_slotJson {s : Option GateId} (h : ∀ d, s = some d → d ≤ 4294967295) :
    slotOfJson? (slotJson s) = some s := by
  cases s with
  | none => rfl
  | some d =>
    show ((Json.integer d).nat? 4294967295).map some = some (some d)
    rw [Json.nat?_integer (h d rfl)]
    rfl

theorem GateRecord.ofJson?_json {r : GateRecord} (h : r.Fits) :
    GateRecord.ofJson? r.json = some r := by
  have hfields : r.json.fields? ["id", "kind", "slots", "value", "x", "y"] =
      some [some (.integer r.id), some (.string r.kind), some (.array (r.slots.map slotJson)),
        some r.value.json, some (.integer r.x), some (.integer r.y)] := by
    simp [json, Json.fields?, Json.member?]
  have hslots : (r.slots.map slotJson).mapM slotOfJson? = some r.slots :=
    mapM_map_eq_self fun s hs => slotOfJson?_slotJson fun d hd => h.slots d (hd ▸ hs)
  unfold ofJson?
  rw [hfields]
  simp [idOfJson?, Json.nat?_integer h.id, Json.text?, Json.items?, hslots, orDefault,
    Value.ofJson?_json, coordinateOfJson?_integer h.x, coordinateOfJson?_integer h.y]

theorem WireRecord.ofJson?_json {r : WireRecord} (h : r.Fits) :
    WireRecord.ofJson? r.json = some r := by
  have hfields : r.json.fields? ["from", "to", "slot"] =
      some [some (.integer r.source), some (.integer r.target), some (.integer r.slot)] := by
    simp [json, Json.fields?, Json.member?]
  unfold ofJson?
  rw [hfields]
  simp [idOfJson?, Json.nat?_integer h.source, Json.nat?_integer h.target, Json.nat?_integer h.slot]

theorem CircuitRecord.ofJson?_json {r : CircuitRecord} (h : r.Fits) :
    CircuitRecord.ofJson? r.json = some r := by
  have hfields : r.json.fields? ["gates", "wires"] =
      some [some (.array (r.gates.map GateRecord.json)),
        some (.array (r.wires.map WireRecord.json))] := by
    simp [json, Json.fields?, Json.member?]
  unfold ofJson?
  rw [hfields]
  simp [Json.items?, mapM_map_eq_self fun g hg => GateRecord.ofJson?_json (h.gates g hg),
    mapM_map_eq_self fun w hw => WireRecord.ofJson?_json (h.wires w hw)]

/-! ## Records as text -/

theorem Json.Textual.array_map {α : Type} {write : α → Json} (h : ∀ a, (write a).Textual)
    (l : List α) : (Json.array (l.map write)).Textual := by
  refine .array fun j hj => ?_
  obtain ⟨a, -, rfl⟩ := List.mem_map.mp hj
  exact h a

theorem Value.textual_json (v : Value) : v.json.Textual := by
  cases v with
  | unset => exact .null
  | known b => exact .integer _

theorem textual_slotJson (s : Option GateId) : (slotJson s).Textual := by
  cases s with
  | none => exact .null
  | some d => exact .integer _

theorem GateRecord.textual_json (r : GateRecord) : r.json.Textual := by
  refine .object (by simp) ?_
  simp only [List.mem_cons, List.not_mem_nil, or_false]
  rintro m (rfl | rfl | rfl | rfl | rfl | rfl)
  · exact .integer _
  · exact .string _
  · exact .array_map textual_slotJson r.slots
  · exact r.value.textual_json
  · exact .integer _
  · exact .integer _

theorem WireRecord.textual_json (r : WireRecord) : r.json.Textual := by
  refine .object (by simp) ?_
  simp only [List.mem_cons, List.not_mem_nil, or_false]
  rintro m (rfl | rfl | rfl) <;> exact .integer _

theorem CircuitRecord.textual_json (r : CircuitRecord) : r.json.Textual := by
  refine .object (by simp) ?_
  simp only [List.mem_cons, List.not_mem_nil, or_false]
  rintro m (rfl | rfl)
  · exact .array_map GateRecord.textual_json r.gates
  · exact .array_map WireRecord.textual_json r.wires

/-- The text of a record is read as that record. -/
theorem CircuitRecord.ofText?_pretty {r : CircuitRecord} (h : r.Fits) :
    (Json.ofText? r.json.pretty).bind CircuitRecord.ofJson? = some r := by
  rw [Json.ofText?_pretty r.textual_json, Option.bind_some, CircuitRecord.ofJson?_json h]

end LogicCircuit
