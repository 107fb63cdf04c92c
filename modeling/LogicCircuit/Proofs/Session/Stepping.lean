import LogicCircuit.Proofs.Evaluation.Exact
import LogicCircuit.Proofs.Propagation.Marks
import LogicCircuit.Session

/-!
# Propagation in a session

`Session.Reachable` collects the sessions that arise by any operations in any order, whether they
succeed or fail. Operations that may change the shape of the circuit abandon the propagation; the
others, setting an input and evaluating, keep gates, wires and marks. So the marks always are those
of the steps made, and each step goes through exactly one level.

Results:
* `Coherent.step`: a step keeps the marks right.
* `Reachable.coherent`: the marks are right in every session.
* `exactAt_of_reachable`: what the marks are while a propagation is under way, and what the next
  step does.
-/

namespace LogicCircuit

theorem Circuit.Reachable.of_loadText {text : String} {c : Circuit}
    (h : Circuit.loadText text = .ok c) : c.Reachable := by
  unfold Circuit.loadText Circuit.load Circuit.ofJson at h
  split at h
  · split at h
    · exact .loaded h
    · cases h
  · cases h

theorem Circuit.Reachable.of_compile {text : String} {limits : Limits} {c : Circuit}
    (hsize : ∀ f, Formula.parse text limits = .ok f → f.size ≤ Circuit.idBound)
    (h : Circuit.compile text limits = .ok c) : c.Reachable := by
  obtain ⟨f, hf, rfl⟩ := map_eq_ok.mp h
  exact .built [f] (by simpa using hsize f hf)

namespace Session

/-! ## Reachable sessions -/

/-- The sessions that arise by operations in any order. -/
inductive Reachable : Session → Prop
  | fresh (limits : Limits) : Reachable { limits }
  /-- The formula has no more gates than there are identifiers. -/
  | compile {s : Session} (hs : Reachable s) (text : String)
      (h : ∀ f, Formula.parse text s.limits = .ok f → f.size ≤ Circuit.idBound) :
      Reachable (s.compile text).2
  | load {s : Session} (hs : Reachable s) (text : String) : Reachable (s.load text).2
  | setInput {s : Session} (hs : Reachable s) (letter : Char) (value : Value) :
      Reachable (s.setInput letter value)
  | evaluate {s : Session} (hs : Reachable s) : Reachable s.evaluate.2
  | truthTable {s : Session} (hs : Reachable s) : Reachable s.truthTable.2
  | csv {s : Session} (hs : Reachable s) : Reachable s.csv.2
  | step {s : Session} (hs : Reachable s) : Reachable s.step.2
  | reset {s : Session} (hs : Reachable s) : Reachable s.reset
  | replace {s : Session} (hs : Reachable s) {c : Circuit} (hc : c.Reachable) :
      Reachable (s.replace c)
  | setLimits {s : Session} (hs : Reachable s) (limits : Limits) : Reachable { s with limits }
  /-- The circuit is edited in any way that ends in a circuit. -/
  | edit {α : Type} {s : Session} (hs : Reachable s) (f : Circuit → α × Circuit)
      (hc : (f s.circuit).2.Reachable) : Reachable (s.edit f).2

/-! ## Coherent sessions -/

/-- The marks of the circuit are those of the propagation. -/
structure Coherent (s : Session) : Prop where
  circuit : s.circuit.Reachable
  marked : ∀ n, s.propagation.step? = some n → s.circuit.Marked n

/-- Nothing is said about the marks when no propagation is under way. -/
theorem coherent_replace (s : Session) {c : Circuit} (hc : c.Reachable) : (s.replace c).Coherent :=
  ⟨hc, fun _ hn => nomatch hn⟩

theorem Coherent.adopt {ε : Type} {s : Session} (h : s.Coherent) {r : Except ε Circuit}
    (hr : ∀ c, r = .ok c → c.Reachable) : (s.adopt r).2.Coherent := by
  cases r with
  | error e => exact h
  | ok c => exact s.coherent_replace (hr c rfl)

theorem Coherent.setInput {s : Session} (h : s.Coherent) (letter : Char) (value : Value) :
    (s.setInput letter value).Coherent := by
  refine ⟨h.circuit.edited (.setInput letter value) trivial, fun n hn => ?_⟩
  refine (h.marked n hn).mapGates fun g => ?_
  split <;> exact ⟨rfl, rfl⟩

theorem Coherent.evaluate {s : Session} (h : s.Coherent) : s.evaluate.2.Coherent := by
  unfold Session.evaluate
  cases s.circuit.evaluate s.circuit.inputAssignment with
  | error e => exact h
  | ok values =>
    exact ⟨h.circuit.edited (.applyValues values.value) trivial,
      fun n hn => (h.marked n hn).applyValues values.value⟩

/-- A step keeps the marks right. -/
theorem Coherent.step {s : Session} (h : s.Coherent) : s.step.2.Coherent := by
  have hc := h.circuit.wellFormed
  refine ⟨h.circuit.edited (.advance s.propagation) trivial, fun m hm => ?_⟩
  unfold Session.step Propagation.advance at hm ⊢
  cases hn : s.propagation.step? with
  | none =>
    rw [hn] at hm
    cases hm
    exact Circuit.marked_start hc
  | some n =>
    rw [hn] at hm
    dsimp only at hm ⊢
    by_cases hl : ∃ id, s.circuit.HasLevel id (n + 1)
    · obtain ⟨id, hl⟩ := hl
      obtain ⟨hok, herror⟩ := (h.marked n hn).continueFrom_of_level hc hl
      cases he : s.circuit.evaluate s.circuit.inputAssignment with
      | error e =>
        rw [herror e he] at hm
        cases hm
      | ok values =>
        rw [hok values he] at hm ⊢
        cases hm
        exact ((h.marked n hn).mark hc hl).applyValues values.value
    · rw [(h.marked n hn).continueFrom_of_no_level hc (not_exists.mp hl)] at hm
      cases hm

/-- The marks are right in every session. -/
theorem Reachable.coherent {s : Session} (hs : s.Reachable) : s.Coherent := by
  induction hs with
  | fresh limits => exact ⟨.empty, fun _ hn => nomatch hn⟩
  | compile _ text h ih => exact ih.adopt fun _ => .of_compile h
  | load _ text ih => exact ih.adopt fun _ => .of_loadText
  | setInput _ letter value ih => exact ih.setInput letter value
  | evaluate _ ih => exact ih.evaluate
  | @truthTable s _ ih =>
    exact s.coherent_replace (ih.circuit.edited (.tabulate s.limits) trivial)
  | @csv s _ ih => exact s.coherent_replace (ih.circuit.edited (.tabulate s.limits) trivial)
  | step _ ih => exact ih.step
  | @reset s _ _ => exact s.coherent_replace .empty
  | @replace s _ _ hc _ => exact s.coherent_replace hc
  | setLimits _ _ ih => exact ⟨ih.circuit, ih.marked⟩
  | @edit _ s _ _ hc _ => exact s.coherent_replace hc

/-! ## Steps -/

/-- What a session is whose propagation has made step `n`, and what its next step does. -/
structure ExactAt (s : Session) (n : Nat) : Prop where
  marked : s.circuit.Marked n
  /-- The propagation ends when no gate has the next level, for no other reason. -/
  finished : s.step.1 = .ok .finished ↔ ∀ id, ¬ s.circuit.HasLevel id (n + 1)
  /-- Otherwise the step reaches the gates of the next level, in ascending order. -/
  next : (∃ id, s.circuit.HasLevel id (n + 1)) → ∃ frontier : List GateId,
    frontier.Pairwise (· < ·) ∧ (∀ id, id ∈ frontier ↔ s.circuit.HasLevel id (n + 1)) ∧
    (s.circuit.Acyclic → ∃ values, s.circuit.evaluate s.circuit.inputAssignment = .ok values ∧
      s.step.1 = .ok (.reached (n + 1) frontier values) ∧
      s.step.2.propagation.step? = some (n + 1)) ∧
    (¬ s.circuit.Acyclic → ∃ e, s.circuit.evaluate s.circuit.inputAssignment = .error e ∧
      s.step.1 = .error e ∧ s.step.2.propagation.step? = none)

theorem step_eq_continueFrom {s : Session} {n : Nat} (hn : s.propagation.step? = some n) :
    s.step.1 = (Propagation.continueFrom n s.circuit).result ∧
      s.step.2.propagation = (Propagation.continueFrom n s.circuit).propagation := by
  unfold step Propagation.advance
  rw [hn]
  exact ⟨rfl, rfl⟩

/-- While a propagation is under way the gates of the levels so far are marked, and each step
reaches exactly the gates of the next one, until there are none or a loop keeps the circuit from
being evaluated. -/
theorem exactAt_of_reachable {s : Session} (hs : s.Reachable) {n : Nat}
    (hn : s.propagation.step? = some n) : s.ExactAt n := by
  have hc := hs.coherent.circuit.wellFormed
  have hm := hs.coherent.marked n hn
  obtain ⟨hresult, hpropagation⟩ := step_eq_continueFrom hn
  refine ⟨hm, ⟨fun hfin => ?_, fun hl => ?_⟩, ?_⟩
  · by_contra hl
    obtain ⟨id, hl⟩ := not_forall_not.mp hl
    obtain ⟨hok, herror⟩ := hm.continueFrom_of_level hc hl
    rw [hresult] at hfin
    cases he : s.circuit.evaluate s.circuit.inputAssignment with
    | error e =>
      rw [herror e he] at hfin
      cases hfin
    | ok values =>
      rw [hok values he] at hfin
      cases hfin
  · rw [hresult, hm.continueFrom_of_no_level hc hl]
  · rintro ⟨id, hl⟩
    obtain ⟨hok, herror⟩ := hm.continueFrom_of_level hc hl
    refine ⟨s.circuit.frontier, Circuit.ascending_frontier hc, fun id => hm.mem_frontier hc,
      fun ha => ?_, fun ha => ?_⟩
    · obtain ⟨values, hv, -⟩ := Circuit.evaluate_acyclic hc ha s.circuit.inputAssignment
      rw [hresult, hpropagation, hok values hv]
      exact ⟨values, hv, rfl, rfl⟩
    · obtain ⟨gate, -, he⟩ := Circuit.evaluate_looped hc ha
      rw [hresult, hpropagation, herror _ (he s.circuit.inputAssignment)]
      exact ⟨⟨gate⟩, he _, rfl, rfl⟩

/-- A gate with an empty slot, an inverter behind it, a gate that it drives twice, and a gate
without any connected input. -/
def openSlots : Circuit :=
  [Circuit.Edit.addGate (.var 'a') {}, .addGate (.binary .and) {}, .addGate .not {},
    .addGate (.binary .or) {}, .addGate (.binary .xor) {}, .connect 0 1 0, .connect 1 2 0,
    .connect 2 4 0, .connect 2 4 1].foldl Circuit.Edit.apply .empty

/-- Two inverters in a ring beside one that a letter drives. -/
def ringBehind : Circuit :=
  [Circuit.Edit.addGate .not {}, .addGate .not {}, .addGate (.var 'b') {}, .addGate .not {},
    .connect 0 1 0, .connect 1 0 0, .connect 2 3 0].foldl Circuit.Edit.apply .empty

/-- One step has been made behind the sources, an input set before and an evaluation made after. -/
def underway : Session :=
  (((({} : Session).replace openSlots).step.2.setInput 'A' (.known true)).step.2).evaluate.2

def beforeRing : Session := (({} : Session).replace ringBehind).step.2

theorem exactAt_of_reachable_underway_and_ring :
    (underway.Reachable ∧ underway.propagation.step? = some 1 ∧ underway.ExactAt 1 ∧
      underway.step.2.propagation.step? = some 2) ∧
    beforeRing.Reachable ∧ beforeRing.propagation.step? = some 0 ∧ beforeRing.ExactAt 0 ∧
      ∃ e, beforeRing.step.1 = .error e := by
  have ho : openSlots.Reachable := Circuit.Reachable.empty.edits
    ⟨(by decide : 0 < Circuit.idBound), (by decide : 1 < Circuit.idBound),
      (by decide : 2 < Circuit.idBound), (by decide : 3 < Circuit.idBound),
      (by decide : 4 < Circuit.idBound), trivial, trivial, trivial, trivial, trivial⟩
  have hb : ringBehind.Reachable := Circuit.Reachable.empty.edits
    ⟨(by decide : 0 < Circuit.idBound), (by decide : 1 < Circuit.idBound),
      (by decide : 2 < Circuit.idBound), (by decide : 3 < Circuit.idBound), trivial, trivial,
      trivial, trivial⟩
  have hu : underway.Reachable :=
    ((((Reachable.fresh {}).replace ho).step.setInput 'A' (.known true)).step).evaluate
  have hr : beforeRing.Reachable := ((Reachable.fresh {}).replace hb).step
  exact ⟨⟨hu, by decide, exactAt_of_reachable hu (by decide), by decide⟩, hr, by decide,
    exactAt_of_reachable hr (by decide), ⟨⟨0⟩, by decide⟩⟩

end Session

end LogicCircuit
