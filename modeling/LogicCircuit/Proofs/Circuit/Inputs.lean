import LogicCircuit.Proofs.Assignment.Entries
import LogicCircuit.Proofs.Circuit.Letters
import LogicCircuit.Proofs.Circuit.Reachable

/-!
# The inputs that gates carry

A letter is read back from the first of its gates that carries a bit. So the gates of a letter all
carry what is read back exactly if they agree with each other. Agreement is lost only when a letter
that is set gets another gate: operations that set inputs treat the gates of a letter alike, and all
others leave them as they are.

Results:
* `get?_inputAssignment`: what is read back for a letter.
* `Carries.get?_inputAssignment`: that is what its gates carry, if they all carry the same.
* `inputsAgree_iff`: the gates of each letter agree if they carry what is read back.
* `InputsAgree.edit`: the edits that keep the agreement.
-/

namespace LogicCircuit

/-! ## Reading letters back -/

namespace Circuit

variable {c d : Circuit}

/-- The bit that a gate carries for a letter. -/
def bitFor? (letter : Char) (g : Gate) : Option Bool :=
  if g.kind = .var letter then g.value.bit? else none

/-- The first bit that a gate carries for a letter. -/
def firstBit? (c : Circuit) (letter : Char) : Option Bool := c.gates.findSome? (bitFor? letter)

theorem get?_readInput {s : Assignment} {g : Gate} {l : Char} (hg : g.kind.normalized = g.kind)
    (hl : l.toUpper = l) : (readInput s g).get? l = (s.get? l).or (bitFor? l g) := by
  unfold readInput bitFor?
  cases hk : g.kind with
  | var letter =>
    rw [hk] at hg
    have hletter : letter.toUpper = letter := GateKind.var.inj hg
    cases hb : g.value.bit? with
    | none => simp [GateKind.letter?]
    | some b =>
      simp only [GateKind.letter?]
      by_cases hs : (s.get? letter).isSome = true
      · rw [if_pos hs]
        by_cases h : letter = l
        · subst h
          obtain ⟨b', hb'⟩ := Option.isSome_iff_exists.mp hs
          simp [hb']
        · simp [h]
      · rw [if_neg hs, Assignment.get?_set, hl, hletter]
        by_cases h : letter = l
        · subst h
          simp [Option.not_isSome_iff_eq_none.mp hs]
        · simp [h, Ne.symm h]
  | const b => simp [GateKind.letter?]
  | not => simp [GateKind.letter?]
  | binary op => simp [GateKind.letter?]

theorem get?_foldl_readInput {gates : List Gate} (hg : ∀ g ∈ gates, g.kind.normalized = g.kind)
    {l : Char} (hl : l.toUpper = l) (s : Assignment) :
    (gates.foldl readInput s).get? l = (s.get? l).or (gates.findSome? (bitFor? l)) := by
  induction gates generalizing s with
  | nil => simp
  | cons g gates ih =>
    rw [List.foldl_cons, ih fun a ha => hg a (List.mem_cons_of_mem _ ha),
      get?_readInput (hg g List.mem_cons_self) hl, List.findSome?_cons, Option.or_assoc]
    cases bitFor? l g <;> rfl

/-- A letter is read back from the first of its gates that carries a bit. -/
theorem get?_inputAssignment (hc : c.WellFormed) {l : Char} (hl : l.toUpper = l) :
    c.inputAssignment.get? l = c.firstBit? l :=
  (get?_foldl_readInput hc.normalized hl {}).trans (Option.none_or ..)

/-! ## What all gates of a letter carry -/

/-- All gates of a letter carry the value. -/
def Carries (c : Circuit) (letter : Char) (value : Value) : Prop :=
  ∀ g ∈ c.gates, g.kind = .var letter → g.value = value

/-- The value that all gates of a letter carry is read back. -/
theorem Carries.get?_inputAssignment (hc : c.WellFormed) {letter : Char}
    (hl : letter ∈ c.letters) {value : Value} (h : c.Carries letter value) :
    c.inputAssignment.get? letter = value.bit? := by
  rw [Circuit.get?_inputAssignment hc (hc.toUpper_letters letter hl)]
  cases hf : c.firstBit? letter with
  | none =>
    obtain ⟨g, hg, hk⟩ := mem_letters.mp hl
    have hbit := List.findSome?_eq_none_iff.mp hf g hg
    rw [bitFor?, if_pos hk, h g hg hk] at hbit
    exact hbit.symm
  | some b =>
    obtain ⟨g, hg, hbit⟩ := List.exists_of_findSome?_eq_some hf
    unfold bitFor? at hbit
    split_ifs at hbit with hk
    rw [← h g hg hk, hbit]

theorem carries_mapInputs {f : Char → Value → Value} {letter : Char} {value : Value}
    (h : ∀ g ∈ c.gates, g.kind = .var letter → f letter g.value = value) :
    (c.mapInputs f).Carries letter value := by
  intro g hg hk
  obtain ⟨a, ha, rfl⟩ := List.mem_map.mp hg
  have hka : a.kind = .var letter := by
    revert hk
    split <;> exact id
  simp only [hka]
  exact h a ha hka

theorem carries_setInput (c : Circuit) (letter : Char) (value : Value) :
    (c.setInput letter value).Carries letter.toUpper value :=
  carries_mapInputs fun _ _ _ => if_pos rfl

theorem Carries.setInput {l : Char} {v : Value} (h : c.Carries l v) {letter : Char}
    (hne : l ≠ letter.toUpper) (value : Value) : (c.setInput letter value).Carries l v :=
  carries_mapInputs fun g hg hk => (if_neg hne).trans (h g hg hk)

theorem carries_setInputs (c : Circuit) (s : Assignment) (letter : Char) :
    (c.setInputs s).Carries letter (s.value letter) :=
  carries_mapInputs fun _ _ _ => rfl

/-! ## Agreement -/

/-- The gates of each letter carry the same value. -/
def InputsAgree (c : Circuit) : Prop :=
  ∀ letter, ∀ g ∈ c.gates, ∀ h ∈ c.gates, g.kind = .var letter → h.kind = .var letter →
    g.value = h.value

/-- Every gate of a letter carries what is read back for the letter if they all carry the same. -/
theorem inputsAgree_iff (hc : c.WellFormed) : c.InputsAgree ↔
    ∀ letter, ∀ g ∈ c.gates, g.kind = .var letter → g.value = c.inputAssignment.value letter := by
  constructor
  · intro hagree letter g hg hk
    have hcarries : c.Carries letter g.value := fun a ha hka => hagree letter a ha g hg hka hk
    rw [Assignment.value, hcarries.get?_inputAssignment hc (mem_letters.mpr ⟨g, hg, hk⟩),
      Value.ofBit?_bit?]
  · intro h letter g hg g' hg' hk hk'
    rw [h letter g hg hk, h letter g' hg' hk']

/-! ## Keeping the agreement -/

/-- Nothing but the kinds and values of the gates of letters matters. -/
theorem InputsAgree.of_gates (h : c.InputsAgree) (hd : ∀ g ∈ d.gates, ∀ letter,
    g.kind = .var letter → ∃ a ∈ c.gates, a.kind = g.kind ∧ a.value = g.value) :
    d.InputsAgree := by
  intro letter g hg g' hg' hk hk'
  obtain ⟨a, ha, hka, hva⟩ := hd g hg letter hk
  obtain ⟨a', ha', hka', hva'⟩ := hd g' hg' letter hk'
  rw [← hva, ← hva', h letter a ha a' ha' (hka.trans hk) (hka'.trans hk')]

/-- Changing the gates keeps the agreement if the new value of a gate of a letter depends on the
letter and on the old value only. -/
theorem InputsAgree.mapGates (h : c.InputsAgree) {f : Gate → Gate} (v : Char → Value → Value)
    (hk : ∀ g, (f g).kind = g.kind)
    (hv : ∀ g letter, g.kind = .var letter → (f g).value = v letter g.value) :
    (c.mapGates f).InputsAgree := by
  intro letter g hg g' hg' hletter hletter'
  obtain ⟨a, ha, rfl⟩ := List.mem_map.mp hg
  obtain ⟨a', ha', rfl⟩ := List.mem_map.mp hg'
  rw [hk] at hletter hletter'
  rw [hv a letter hletter, hv a' letter hletter', h letter a ha a' ha' hletter hletter']

theorem InputsAgree.modifyGate (h : c.InputsAgree) (id : GateId) {f : Gate → Gate}
    (hk : ∀ g, (f g).kind = g.kind) (hv : ∀ g, (f g).value = g.value) :
    (c.modifyGate id f).InputsAgree := by
  refine h.mapGates (fun _ value => value) (fun g => ?_) fun g _ _ => ?_ <;> split_ifs
  · exact hk g
  · rfl
  · exact hv g
  · rfl

theorem InputsAgree.mapInputs (h : c.InputsAgree) (f : Char → Value → Value) :
    (c.mapInputs f).InputsAgree := by
  refine h.mapGates f (fun g => ?_) fun g letter hk => ?_
  · split <;> rfl
  · simp only [hk]

theorem InputsAgree.applyValues (h : c.InputsAgree) (value : GateId → Value) :
    (c.applyValues value).InputsAgree := by
  refine h.mapGates (fun _ value => value) (fun g => ?_) fun g letter hk => ?_
  · split <;> rfl
  · simp only [hk]

theorem InputsAgree.clearActivity (h : c.InputsAgree) : c.clearActivity.InputsAgree :=
  h.mapGates (fun _ value => value) (fun _ => rfl) fun _ _ _ => rfl

theorem InputsAgree.activateAll (h : c.InputsAgree) (ids : List GateId) :
    (c.activateAll ids).InputsAgree := by
  unfold Circuit.activateAll
  induction ids generalizing c with
  | nil => exact h
  | cons id ids ih =>
    exact ih (h.modifyGate id (f := fun g => { g with active := true }) (fun _ => rfl) fun _ => rfl)

theorem InputsAgree.tabulate (h : c.InputsAgree) (limits : Limits) :
    (c.tabulate limits).circuit.InputsAgree := by
  unfold Circuit.tabulate
  dsimp only
  split_ifs
  · exact h.mapInputs _
  · exact h

theorem InputsAgree.advance (h : c.InputsAgree) (p : Propagation) :
    (p.advance c).circuit.InputsAgree := by
  unfold Propagation.advance
  cases p.step? with
  | none => exact h.clearActivity.activateAll _
  | some step =>
    unfold Propagation.continueFrom
    dsimp only
    split_ifs
    · exact h
    · split
      · exact h.activateAll _
      · exact (h.activateAll _).applyValues _

theorem InputsAgree.setSlot (h : c.InputsAgree) (target : GateId) (slot : Nat)
    (driver : Option GateId) : (c.setSlot target slot driver).InputsAgree :=
  h.modifyGate target (fun _ => rfl) fun _ => rfl

/-- A gate that the edit adds does not stand for a letter that is set. -/
def Edit.KeepsInputs (c : Circuit) : Edit → Prop
  | addGate kind _ => ∀ letter, kind.normalized = .var letter →
      ∀ g ∈ c.gates, g.kind = .var letter → g.value = .unset
  | _ => True

theorem InputsAgree.addGate (h : c.InputsAgree) {kind : GateKind} {position : Position}
    (hk : (Edit.addGate kind position).KeepsInputs c) :
    (c.addGate kind position).2.InputsAgree := by
  intro letter g hg g' hg' hkind hkind'
  rcases mem_insertGate.mp hg with rfl | hg <;> rcases mem_insertGate.mp hg' with rfl | hg'
  · rfl
  · exact (hk letter hkind g' hg' hkind').symm
  · exact hk letter hkind' g hg hkind
  · exact h letter g hg g' hg' hkind hkind'

theorem InputsAgree.edit (h : c.InputsAgree) {e : Edit} (he : e.KeepsInputs c) :
    (e.apply c).InputsAgree := by
  cases e with
  | addGate kind position => exact h.addGate he
  | connect source target slot =>
    rw [Edit.apply]
    split
    · obtain ⟨-, -, -, rfl⟩ := connect_eq_ok_iff.mp ‹_›
      exact h.setSlot target slot (some source)
    · exact h
  | disconnect target slot =>
    rw [Edit.apply, disconnect?, Option.map_map]
    cases c.wires.find? (·.enters target slot) with
    | none => exact h
    | some w => exact h.setSlot target slot none
  | removeGate id =>
    rw [Edit.apply, removeGate?]
    split_ifs
    · refine h.of_gates fun g hg letter _ => ?_
      obtain ⟨a, ha, rfl⟩ := List.mem_map.mp hg
      exact ⟨a, List.mem_of_mem_filter ha, rfl, rfl⟩
    · exact h
  | moveGate id position =>
    rw [Edit.apply, moveGate?]
    split_ifs
    · exact h.modifyGate id (fun _ => rfl) fun _ => rfl
    · exact h
  | clear => exact fun _ _ hg => absurd hg List.not_mem_nil
  | setInput letter value => exact h.mapInputs _
  | setInputs s => exact h.mapInputs _
  | resetInputs => exact h.mapInputs _
  | applyValues value => exact h.applyValues value
  | clearActivity => exact h.clearActivity
  | tabulate limits => exact h.tabulate limits
  | advance propagation => exact h.advance propagation

/-! ## Circuits of formulas -/

/-- No gate carries a bit. -/
def AllUnset (c : Circuit) : Prop := ∀ g ∈ c.gates, g.value = .unset

theorem AllUnset.inputsAgree (h : c.AllUnset) : c.InputsAgree :=
  fun _ g hg g' hg' _ _ => (h g hg).trans (h g' hg').symm

theorem AllUnset.addGate (h : c.AllUnset) (kind : GateKind) (position : Position) :
    (c.addGate kind position).2.AllUnset := by
  intro g hg
  rcases mem_insertGate.mp hg with rfl | hg
  · rfl
  · exact h g hg

theorem AllUnset.wire (h : c.AllUnset) (operand gate : GateId) (slot : Nat) :
    (c.wire operand gate slot).AllUnset := by
  unfold Circuit.wire
  split
  · obtain ⟨-, -, -, rfl⟩ := connect_eq_ok_iff.mp ‹_›
    intro g hg
    obtain ⟨a, ha, rfl⟩ := List.mem_map.mp hg
    split_ifs
    · exact h a ha
    · exact h a ha
  · exact h

theorem AllUnset.addFormulaAt (h : c.AllUnset) (f : Formula) (x y : Int) :
    (c.addFormulaAt f x y).2.AllUnset := by
  induction f generalizing c x y with
  | var letter => exact h.addGate _ _
  | not f ih => exact (ih (h.addGate _ _) _ _).wire _ _ _
  | binary op f g ihf ihg =>
    exact ((ihg (ihf (h.addGate _ _) _ _) _ _).wire _ _ _).wire _ _ _

/-- The circuit of a text carries no bit yet. -/
theorem allUnset_of_compile {text : String} {limits : Limits}
    (h : compile text limits = .ok c) : c.AllUnset := by
  obtain ⟨f, -, rfl⟩ := map_eq_ok.mp h
  have hempty : empty.AllUnset := fun _ hg => absurd hg List.not_mem_nil
  exact hempty.addFormulaAt f _ _

end Circuit

end LogicCircuit
