import LogicCircuit.Netlist
import LogicCircuit.Proofs.Circuit.WellFormed

/-!
# Writing netlists piece by piece

A netlist is written to a destination piece by piece, behind two checks. What comes of it, if the
destination takes everything, is the text of the netlist, and nothing if there is none.

Results:
* `openSlot?_eq_some`, `openSlot?_eq_none`: which empty slot is reported.
* `Writes.bind`, `Writes.forM`: what is written by several writings.
* `writeNetlist_eq`: what is written for a circuit.
-/

namespace LogicCircuit

/-- Writing to a destination that takes everything; the state is what it has taken so far. -/
abbrev Writing (α : Type) := ExceptT CircuitError (StateM ByteArray) α

/-- Write a text behind what has been written before. -/
def Writing.write (text : String) : Writing Unit := modify (· ++ text.toUTF8)

/-- What comes of a writing to a destination that has taken something before: the result, and all
that it has taken then. -/
def Writing.runOn {α : Type} (w : Writing α) (before : ByteArray) :
    Except CircuitError α × ByteArray :=
  (ExceptT.run w).run before

namespace Circuit

/-- Whether the circuit has a netlist: no slot is empty, and there is no loop. -/
def checkExportable (c : Circuit) : Except CircuitError Unit :=
  match c.openSlot? with
  | some (id, slot) => .error (.openSlot id slot)
  | none =>
    match c.checkAcyclic with
    | .error e => .error (.loop e)
    | .ok _ => .ok ()

open Writing in
/-- Write the pieces of a netlist. -/
def writePieces (c : Circuit) : Writing Unit := do
  write "# .bench (ISCAS) file\n"
  write "# Generated by boolcirc\n"
  c.registry.letters.forM fun letter => write s!"INPUT({letter})\n"
  write "\n"
  c.sinks.forM fun id => write s!"OUTPUT({GateId.text id})\n"
  write "\n"
  c.gates.forM fun g => do
    write s!"{GateId.text g.id} = "
    write s!"{Netlist.definitionText g.definition}\n"

/-- Write a netlist, unless the circuit has none. -/
def writeNetlist (c : Circuit) : Writing Unit := do
  ExceptT.mk (pure c.checkExportable)
  c.writePieces

end Circuit

/-! ## Writings -/

/-- The writing succeeds and writes the text. -/
def Writes (w : Writing Unit) (text : String) : Prop :=
  ∀ before, w.runOn before = (.ok (), before ++ text.toUTF8)

theorem writes_write (text : String) : Writes (.write text) text := fun _ => rfl

theorem Writes.bind {w w' : Writing Unit} {text text' : String} (h : Writes w text)
    (h' : Writes w' text') : Writes (do w; w') (text ++ text') := by
  intro before
  have hbind : (do w; w' : Writing Unit).runOn before =
      match w.runOn before with
      | (.ok _, after) => w'.runOn after
      | (.error e, after) => (.error e, after) := by
    show ((do w; w' : Writing Unit).run).run before = _
    rw [ExceptT.run_bind, StateT.run_bind]
    unfold Writing.runOn
    rcases StateT.run (ExceptT.run w) before with ⟨result, after⟩
    cases result <;> rfl
  rw [hbind, h]
  show w'.runOn (before ++ text.toUTF8) = _
  rw [h', String.toUTF8_eq_toByteArray, String.toUTF8_eq_toByteArray,
    String.toUTF8_eq_toByteArray, String.toByteArray_append, ByteArray.append_assoc]

theorem Writes.forM {α : Type} {f : α → Writing Unit} {text : α → String} {l : List α}
    (h : ∀ a ∈ l, Writes (f a) (text a)) : Writes (l.forM f) (String.join (l.map text)) := by
  induction l with
  | nil =>
    intro before
    show (_, before) = (_, before ++ _)
    simp
  | cons a l ih =>
    rw [List.map_cons, String.join_cons]
    exact (h a List.mem_cons_self).bind (ih fun b hb => h b (List.mem_cons_of_mem _ hb))

/-! ## The pieces of a netlist -/

namespace Circuit

variable {c : Circuit}

/-- The netlist of a circuit that has one. -/
def toNetlist (c : Circuit) : Netlist where
  inputs := c.letters
  outputs := c.sinks
  definitions := c.gates.map fun g => (g.id, g.definition)

theorem netlist_eq (c : Circuit) : c.netlist = c.checkExportable.map fun _ => c.toNetlist := by
  unfold netlist checkExportable
  cases c.openSlot? with
  | some p => rfl
  | none => cases c.checkAcyclic <;> rfl

/-- The pieces make up the text of the netlist. -/
theorem writes_writePieces (c : Circuit) : Writes c.writePieces c.toNetlist.text := by
  have hpieces : Writes c.writePieces _ :=
    (writes_write _).bind ((writes_write _).bind
      ((Writes.forM fun letter _ => writes_write _).bind ((writes_write _).bind
        ((Writes.forM fun id _ => writes_write _).bind ((writes_write _).bind
          (Writes.forM fun g _ => (writes_write _).bind (writes_write _)))))))
  have hstring : ∀ s : String, toString s = s := fun _ => rfl
  convert hpieces using 1
  refine String.toList_injective ?_
  simp [Netlist.text, Netlist.lines, toNetlist, Text.unlines, String.toList_join, List.flatMap_map,
    hstring]

/-- What is written for a circuit: its netlist, or nothing. -/
theorem writeNetlist_eq (c : Circuit) (before : ByteArray) :
    c.writeNetlist.runOn before =
      match c.netlist with
      | .error e => (.error e, before)
      | .ok n => (.ok (), before ++ n.text.toUTF8) := by
  rw [netlist_eq]
  have hrun : c.writeNetlist.runOn before =
      match c.checkExportable with
      | .ok _ => c.writePieces.runOn before
      | .error e => (.error e, before) := by
    show ((do ExceptT.mk (pure c.checkExportable); c.writePieces : Writing Unit).run).run before = _
    rw [ExceptT.run_bind, StateT.run_bind]
    cases c.checkExportable <;> rfl
  rw [hrun]
  cases c.checkExportable with
  | error e => rfl
  | ok _ => exact c.writes_writePieces before

end Circuit

/-! ## The empty slot that is reported -/

theorem Gate.openSlot?_eq_none {g : Gate} : g.openSlot? = none ↔ none ∉ g.slots := by
  unfold openSlot?
  rw [List.findIdx?_eq_none_iff]
  constructor
  · exact fun h hmem => absurd (h none hmem) (by decide)
  · intro h s hs
    cases s with
    | none => exact absurd hs h
    | some d => rfl

theorem Gate.openSlot?_eq_some {g : Gate} {slot : Nat} (h : g.openSlot? = some slot) :
    g.slots[slot]? = some none ∧ ∀ i < slot, g.slots[i]? ≠ some none := by
  obtain ⟨hlt, hopen, hfirst⟩ := List.findIdx?_eq_some_iff_getElem.mp h
  constructor
  · rw [List.getElem?_eq_getElem hlt]
    exact congrArg some (Option.isNone_iff_eq_none.mp hopen)
  · intro i hi he
    have hfull := hfirst i hi
    rw [List.getElem?_eq_getElem (hi.trans hlt), Option.some.injEq] at he
    rw [he] at hfull
    exact hfull rfl

namespace Circuit

variable {c : Circuit}

/-- The slot is the first empty one of the gate, and no gate before has an empty one. -/
structure FirstOpen (c : Circuit) (g : Gate) (slot : Nat) : Prop where
  mem : g ∈ c.gates
  empty : g.slots[slot]? = some none
  first : ∀ i < slot, g.slots[i]? ≠ some none
  least : ∀ g' ∈ c.gates, none ∈ g'.slots → g.id ≤ g'.id

theorem openSlot?_eq_none : c.openSlot? = none ↔ ∀ g ∈ c.gates, none ∉ g.slots := by
  unfold openSlot?
  rw [List.findSome?_eq_none_iff]
  exact forall₂_congr fun g _ => by rw [Option.map_eq_none_iff, Gate.openSlot?_eq_none]

theorem openSlot?_eq_some (hc : c.WellFormed) {id : GateId} {slot : Nat}
    (h : c.openSlot? = some (id, slot)) : ∃ g, c.FirstOpen g slot ∧ g.id = id := by
  obtain ⟨before, g, behind, hgates, hg, hbefore⟩ := List.findSome?_eq_some_iff.mp h
  obtain ⟨slot', hslot, he⟩ := Option.map_eq_some_iff.mp hg
  obtain ⟨rfl, rfl⟩ := Prod.mk.inj he
  obtain ⟨hempty, hfirst⟩ := Gate.openSlot?_eq_some hslot
  have hmem : g ∈ c.gates := hgates ▸ List.mem_append_right _ List.mem_cons_self
  have hasc := List.pairwise_map.mp hc.ascending
  rw [hgates, List.pairwise_append, List.pairwise_cons] at hasc
  refine ⟨g, ⟨hmem, hempty, hfirst, fun g' hg' hopen => ?_⟩, rfl⟩
  rw [hgates] at hg'
  rcases List.mem_append.mp hg' with hg' | hg'
  · exact absurd hopen (Gate.openSlot?_eq_none.mp (Option.map_eq_none_iff.mp (hbefore g' hg')))
  · rcases List.mem_cons.mp hg' with rfl | hg'
    · exact le_rfl
    · exact (hasc.2.1.1 g' hg').le

end Circuit

end LogicCircuit
