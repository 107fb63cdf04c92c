import LogicCircuit.Proofs.Session.Stepping

/-!
# Refused operations of a session

Compiling and loading build a new circuit and put it in place last, and an evaluation stores its
values last. So when one of them is refused, the session is what it was. A step of the propagation
marks the gates it reaches before it evaluates the circuit. When a loop stops it, the marks stay:
nothing else has changed, but the circuit is not the one from before.

Results:
* `step_of_error`: the session after a step that is refused.
* `activateAll_frontier_ne`: the gates that a step marks were not marked.
* `refused_exact`: the session after any operation that is refused.
-/

namespace LogicCircuit

/-! ## Marks -/

namespace Circuit

/-- A gate that the next step reaches has not been marked, so marking it changes the circuit. -/
theorem activateAll_frontier_ne {c : Circuit} (h : c.frontier ≠ []) :
    c.activateAll c.frontier ≠ c := by
  obtain ⟨id, hid⟩ := List.exists_mem_of_ne_nil _ h
  obtain ⟨g, hmem, rfl⟩ := List.mem_map.mp (show id ∈ List.map _ _ from hid)
  obtain ⟨hg, hf⟩ := List.mem_filter.mp hmem
  have hnew : g.active = false := by
    simp only [Bool.and_eq_true, Bool.not_eq_true'] at hf
    exact hf.1.1
  intro he
  have hgates := c.gates_activateAll c.frontier
  rw [he] at hgates
  have hmarked := List.map_inj_left.mp ((List.map_id c.gates).trans hgates) g hg
  have hactive : g.active = (g.active || decide (g.id ∈ c.frontier)) := congrArg Gate.active hmarked
  rw [hnew, decide_eq_true hid] at hactive
  exact Bool.false_ne_true hactive

end Circuit

namespace Session

/-! ## Operations that may be refused -/

/-- An operation that may be refused, with its argument. -/
inductive Operation where
  | compile (text : String)
  | load (text : String)
  | evaluate
  | step

/-- The session after an operation, whether it is refused or not. -/
def Operation.after (s : Session) : Operation → Session
  | compile text => (s.compile text).2
  | load text => (s.load text).2
  | evaluate => s.evaluate.2
  | step => s.step.2

/-- The operation is refused. -/
def Operation.Fails (s : Session) : Operation → Prop
  | compile text => ∃ e, (s.compile text).1 = .error e
  | load text => ∃ e, (s.load text).1 = .error e
  | evaluate => ∃ e, s.evaluate.1 = .error e
  | step => ∃ e, s.step.1 = .error e

variable {s : Session}

theorem adopt_of_error {ε : Type} {r : Except ε Circuit} {e : ε} (h : (s.adopt r).1 = .error e) :
    (s.adopt r).2 = s := by
  cases r with
  | error _ => rfl
  | ok c => cases h

theorem evaluate_of_error {e : LoopError} (h : s.evaluate.1 = .error e) : s.evaluate.2 = s := by
  unfold Session.evaluate at h ⊢
  cases hv : s.circuit.evaluate s.circuit.inputAssignment with
  | error _ => rfl
  | ok values =>
    rw [hv] at h
    cases h

/-- Only a step behind the sources is refused, and only after it has found gates to mark. -/
theorem step_of_error {e : LoopError} (h : s.step.1 = .error e) :
    s.circuit.frontier ≠ [] ∧
      s.step.2 = { s with
        propagation := .idle
        circuit := s.circuit.activateAll s.circuit.frontier } := by
  unfold Session.step Propagation.advance at h ⊢
  cases hn : s.propagation.step? with
  | none =>
    rw [hn] at h
    cases h
  | some n =>
    rw [hn] at h
    simp only [Propagation.continueFrom] at h ⊢
    by_cases hstop : (s.circuit.frontier.isEmpty || decide (s.circuit.gates.length < n + 1)) = true
    · rw [if_pos hstop] at h
      cases h
    · rw [if_neg hstop] at h ⊢
      refine ⟨fun hnil => hstop (by rw [hnil]; rfl), ?_⟩
      cases hv : (s.circuit.activateAll s.circuit.frontier).evaluate
          (s.circuit.activateAll s.circuit.frontier).inputAssignment with
      | error _ => rfl
      | ok values =>
        rw [hv] at h
        cases h

/-! ## After a refusal -/

/-- What an operation has done to a session that refuses it. -/
structure Refuses (s : Session) (op : Operation) : Prop where
  /-- All operations but a step leave the whole session as it is. -/
  kept : op ≠ .step → op.after s = s
  /-- A step has marked the gates it was to reach, and the wires that enter them. -/
  marked : op = .step → (op.after s).circuit = s.circuit.activateAll s.circuit.frontier
  /-- So a step is the only operation after which the circuit is another one. -/
  changed : (op.after s).circuit ≠ s.circuit ↔ op = .step
  /-- Gates, slots, values, positions, wires and the next identifier are the same in any case. -/
  unmarked : (op.after s).circuit.clearActivity = s.circuit.clearActivity

theorem Refuses.of_kept {op : Operation} (hop : op ≠ .step) (h : op.after s = s) :
    s.Refuses op where
  kept _ := h
  marked hstep := absurd hstep hop
  changed := ⟨fun hne => absurd (congrArg circuit h) hne, fun hstep => absurd hstep hop⟩
  unmarked := by rw [h]

theorem Refuses.of_step {e : LoopError} (h : s.step.1 = .error e) : s.Refuses .step := by
  obtain ⟨hne, hafter⟩ := step_of_error h
  have hcircuit : (Operation.step.after s).circuit = s.circuit.activateAll s.circuit.frontier :=
    congrArg circuit hafter
  refine ⟨fun hstep => absurd rfl hstep, fun _ => hcircuit, ⟨fun _ => rfl, fun _ => ?_⟩, ?_⟩
  · rw [hcircuit]
    exact Circuit.activateAll_frontier_ne hne
  · rw [hcircuit]
    exact s.circuit.clearActivity_activateAll _

/-- Whatever the session, an operation that is refused leaves the circuit as it is, unless it is a
step: that one leaves its marks behind, and only them. -/
theorem refused_exact (s : Session) (op : Operation) (h : op.Fails s) : s.Refuses op := by
  cases op with
  | compile text =>
    obtain ⟨e, he⟩ := h
    exact .of_kept (by simp) (adopt_of_error he)
  | load text =>
    obtain ⟨e, he⟩ := h
    exact .of_kept (by simp) (adopt_of_error he)
  | evaluate =>
    obtain ⟨e, he⟩ := h
    exact .of_kept (by simp) (evaluate_of_error he)
  | step =>
    obtain ⟨e, he⟩ := h
    exact .of_step he

theorem beforeRing_reachable : beforeRing.Reachable := by
  have hb : ringBehind.Reachable := Circuit.Reachable.empty.edits
    ⟨(by decide : 0 < Circuit.idBound), (by decide : 1 < Circuit.idBound),
      (by decide : 2 < Circuit.idBound), (by decide : 3 < Circuit.idBound), trivial, trivial,
      trivial, trivial⟩
  exact ((Reachable.fresh {}).replace hb).step

theorem refused_exact_ring :
    beforeRing.Reachable ∧ Operation.step.Fails beforeRing ∧ beforeRing.Refuses .step ∧
      Operation.evaluate.Fails beforeRing ∧ beforeRing.Refuses .evaluate := by
  have hstep : Operation.step.Fails beforeRing := ⟨⟨0⟩, by decide⟩
  have hevaluate : Operation.evaluate.Fails beforeRing := ⟨⟨0⟩, by decide⟩
  exact ⟨beforeRing_reachable, hstep, refused_exact _ _ hstep, hevaluate,
    refused_exact _ _ hevaluate⟩

/-- A step that a loop stops changes the stored circuit. -/
theorem not_refused_step_keeps :
    ¬ ∀ s : Session, s.Reachable → ∀ op : Operation, op.Fails s →
      (op.after s).circuit = s.circuit := by
  intro h
  have hkept := h beforeRing beforeRing_reachable .step ⟨⟨0⟩, by decide⟩
  exact absurd hkept (by decide)

end Session

end LogicCircuit
