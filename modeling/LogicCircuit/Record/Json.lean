import LogicCircuit.Json.Printer
import LogicCircuit.Json.Reader
import LogicCircuit.Record.Circuit

/-!
# Records as JSON

A record is an object with the fields `gates` and `wires`; a gate has the fields `id`, `kind`,
`slots`, `value`, `x` and `y`, of which the last three may be missing, and a wire the fields
`from`, `to` and `slot`. Identifiers fit 32 bits, coordinates fit 32 bits with a sign, and slots
fit 64 bits.

How records are read follows the JSON library that circuit files are exchanged with, which is not
part of this project. A record may also be an array of its fields in their order. Members of other
names are ignored, and a field that is given twice is refused. A missing field is refused as well
unless it has a default, and null is no default: it stands for an empty slot and an unset value, and
for nothing else. A number that does not fit its field is refused.

Main definitions:

* `CircuitRecord.json`, `CircuitRecord.ofJson?`: a record as JSON, and back.
* `Circuit.ofJson`: the circuit of a record.
* `Circuit.saved`, `Circuit.load`: a circuit as the text of a file, and back.
-/

namespace LogicCircuit

/-! ## Writing -/

/-- A value as JSON. -/
def Value.json : Value → Json
  | unset => .null
  | known b => .integer (if b then 1 else 0)

/-- The driver of a slot as JSON. -/
def slotJson : Option GateId → Json
  | none => .null
  | some id => .integer id

/-- The record of a gate as JSON. -/
def GateRecord.json (r : GateRecord) : Json :=
  .object [
    (some "id", .integer r.id),
    (some "kind", .string (some r.kind)),
    (some "slots", .array (r.slots.map slotJson)),
    (some "value", r.value.json),
    (some "x", .integer r.x),
    (some "y", .integer r.y)]

/-- The record of a wire as JSON. -/
def WireRecord.json (r : WireRecord) : Json :=
  .object [
    (some "from", .integer r.source),
    (some "to", .integer r.target),
    (some "slot", .integer r.slot)]

/-- A record as JSON. -/
def CircuitRecord.json (r : CircuitRecord) : Json :=
  .object [
    (some "gates", .array (r.gates.map GateRecord.json)),
    (some "wires", .array (r.wires.map WireRecord.json))]

/-! ## Reading -/

/-- A value: null, zero or one. -/
def Value.ofJson? : Json → Option Value
  | .null => some unset
  | .integer 0 => some (known false)
  | .integer 1 => some (known true)
  | _ => none

/-- An identifier. -/
def idOfJson? (j : Json) : Option GateId := j.nat? 4294967295

/-- The driver of a slot, or null. -/
def slotOfJson? : Json → Option (Option GateId)
  | .null => some none
  | j => (idOfJson? j).map some

/-- A coordinate. -/
def coordinateOfJson? (j : Json) : Option Int := j.int? (-2147483648) 2147483647

/-- A field that takes a default where it is missing. -/
def orDefault {α : Type} (default : α) (read : Json → Option α) : Option Json → Option α
  | none => some default
  | some j => read j

/-- The record of a gate. -/
def GateRecord.ofJson? (j : Json) : Option GateRecord := do
  match ← j.fields? ["id", "kind", "slots", "value", "x", "y"] with
  | [some id, some kind, some slots, value, x, y] =>
    return {
      id := ← idOfJson? id
      kind := ← kind.text?
      slots := ← (← slots.items?).mapM slotOfJson?
      value := ← orDefault .unset Value.ofJson? value
      x := ← orDefault 0 coordinateOfJson? x
      y := ← orDefault 0 coordinateOfJson? y }
  | _ => none

/-- The record of a wire. -/
def WireRecord.ofJson? (j : Json) : Option WireRecord := do
  match ← j.fields? ["from", "to", "slot"] with
  | [some source, some target, some slot] =>
    return {
      source := ← idOfJson? source
      target := ← idOfJson? target
      slot := ← slot.nat? 18446744073709551615 }
  | _ => none

/-- A record. -/
def CircuitRecord.ofJson? (j : Json) : Option CircuitRecord := do
  match ← j.fields? ["gates", "wires"] with
  | [some gates, some wires] =>
    return {
      gates := ← (← gates.items?).mapM GateRecord.ofJson?
      wires := ← (← wires.items?).mapM WireRecord.ofJson? }
  | _ => none

/-! ## Circuits as files -/

/-- The text of the file of a circuit. -/
def Circuit.saved (c : Circuit) : String := c.record.json.pretty

/-- The circuit of a record that is given as JSON. -/
def Circuit.ofJson (j : Json) : Except CircuitError Circuit :=
  match CircuitRecord.ofJson? j with
  | some r => r.circuit
  | none => .error .malformed

/-- The circuit of the runes of a file. -/
def Circuit.load (file : List Text.Rune) : Except CircuitError Circuit :=
  match Json.ofRunes? file with
  | some j => ofJson j
  | none => .error .malformed

/-- The circuit of the text of a file. -/
def Circuit.loadText (text : String) : Except CircuitError Circuit := load (Text.runes text)

end LogicCircuit
