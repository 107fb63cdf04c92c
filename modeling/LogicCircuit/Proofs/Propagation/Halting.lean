import LogicCircuit.Proofs.Propagation.Marks

/-!
# A propagation ends

Advancing again and again is a loop without a bound: it goes on until a step answers that no gate
was left to reach, or that the circuit has a loop. Each step that answers otherwise marks a gate
that was not marked before, so it ends after at most two more steps than there are gates, whatever
the circuit, its marks and the state of the propagation are.

Results:
* `Runs.unique`: advancing until the propagation ends comes to one result.
* `remaining_advance_lt`: each step but the last uses up some of the steps that remain.
* `exists_runs`: `Propagation.run` is what advancing until the propagation ends comes to.
-/

namespace LogicCircuit

/-! ## Unmarked gates -/

namespace Circuit

/-- The gates that have not been reached. -/
def unmarked (c : Circuit) : List Gate := c.gates.filter (!·.active)

theorem length_unmarked_le (c : Circuit) : c.unmarked.length ≤ c.gates.length :=
  List.length_filter_le _ _

theorem length_unmarked_applyValues (c : Circuit) (value : GateId → Value) :
    (c.applyValues value).unmarked.length = c.unmarked.length := by
  unfold unmarked applyValues mapGates
  rw [List.filter_map, List.length_map]
  congr 2
  funext g
  simp only [Function.comp_apply]
  split <;> rfl

/-- Marking the gates that the next step reaches leaves fewer gates unmarked. -/
theorem length_unmarked_frontier_lt {c : Circuit} (h : c.frontier ≠ []) :
    (c.activateAll c.frontier).unmarked.length < c.unmarked.length := by
  have hfilter : (c.activateAll c.frontier).unmarked.length =
      (c.unmarked.filter fun g => !decide (g.id ∈ c.frontier)).length := by
    unfold unmarked
    rw [gates_activateAll, List.filter_map, List.length_map, List.filter_filter]
    congr 2
    funext g
    simp [Bool.and_comm]
  rw [hfilter, List.length_filter_lt_length_iff_exists]
  obtain ⟨id, hid⟩ := List.exists_mem_of_ne_nil _ h
  obtain ⟨g, hg, rfl⟩ := List.mem_map.mp (show id ∈ List.map _ _ from hid)
  obtain ⟨hmem, hnew⟩ := List.mem_filter.mp hg
  simp only [Bool.and_eq_true] at hnew
  exact ⟨g, List.mem_filter.mpr ⟨hmem, hnew.1.1⟩, by simp [hid]⟩

end Circuit

namespace Propagation

/-! ## Advancing until the propagation ends -/

/-- What a run comes to that makes the given step first. -/
def Run.after (step : Step) (r : Run) : Run :=
  { r with result := r.result.map (step.gates :: ·) }

/-- Advancing the propagation until it finishes or fails takes the given number of advances, and
this is what it comes to. -/
inductive Runs : Propagation → Circuit → Nat → Run → Prop
  | failed {p p' : Propagation} {c d : Circuit} {e : LoopError}
      (h : p.advance c = ⟨.error e, p', d⟩) : Runs p c 1 ⟨.error e, p', d⟩
  | finished {p p' : Propagation} {c d : Circuit} (h : p.advance c = ⟨.ok .finished, p', d⟩) :
      Runs p c 1 ⟨.ok [], p', d⟩
  | step {p p' : Propagation} {c d : Circuit} {step : Step} {n : Nat} {r : Run}
      (h : p.advance c = ⟨.ok step, p', d⟩) (hs : step ≠ .finished) (hr : Runs p' d n r) :
      Runs p c (n + 1) (r.after step)

/-- Advancing until the propagation ends comes to one result. -/
theorem Runs.unique {p : Propagation} {c : Circuit} {n m : Nat} {r r' : Run} (h : p.Runs c n r)
    (h' : p.Runs c m r') : n = m ∧ r = r' := by
  induction h generalizing m r' with
  | failed he =>
    cases h' with
    | failed he' =>
      cases he.symm.trans he'
      exact ⟨rfl, rfl⟩
    | finished hf => cases he.symm.trans hf
    | step hs _ _ => cases he.symm.trans hs
  | finished hf =>
    cases h' with
    | failed he => cases he.symm.trans hf
    | finished hf' =>
      cases hf.symm.trans hf'
      exact ⟨rfl, rfl⟩
    | step hs hne _ =>
      cases hf.symm.trans hs
      exact absurd rfl hne
  | step hs hne _ ih =>
    cases h' with
    | failed he => cases he.symm.trans hs
    | finished hf =>
      cases hf.symm.trans hs
      exact absurd rfl hne
    | step hs' _ hr' =>
      cases hs.symm.trans hs'
      obtain ⟨rfl, rfl⟩ := ih hr'
      exact ⟨rfl, rfl⟩

/-! ## Steps that remain -/

/-- How many steps can still reach a gate. -/
def remaining (p : Propagation) (c : Circuit) : Nat :=
  if p.isIdle then c.gates.length + 1 else c.unmarked.length

theorem remaining_le (p : Propagation) (c : Circuit) : p.remaining c ≤ c.gates.length + 1 := by
  unfold remaining
  split_ifs
  · exact le_rfl
  · exact c.length_unmarked_le.trans (Nat.le_succ _)

theorem unmarked_start_lt (c : Circuit) :
    (start c).circuit.unmarked.length < c.gates.length + 1 := by
  refine Nat.lt_succ_of_le ((Circuit.length_unmarked_le _).trans_eq ?_)
  show (c.clearActivity.activateAll c.sources).gates.length = _
  rw [Circuit.gates_activateAll, List.length_map]
  exact List.length_map _

/-- A step that reaches gates does so by marking what was not marked before. -/
theorem continueFrom_of_reached {n : Nat} {c d : Circuit} {step : Step} {p : Propagation}
    (h : continueFrom n c = ⟨.ok step, p, d⟩) (hs : step ≠ .finished) :
    c.frontier ≠ [] ∧ p = ⟨some (n + 1)⟩ ∧
      ∃ value, d = (c.activateAll c.frontier).applyValues value := by
  unfold continueFrom at h
  dsimp only at h
  by_cases hstop : (c.frontier.isEmpty || decide (c.gates.length < n + 1)) = true
  · rw [if_pos hstop] at h
    cases h
    exact absurd rfl hs
  · rw [if_neg hstop] at h
    cases hv : (c.activateAll c.frontier).evaluate (c.activateAll c.frontier).inputAssignment with
    | error e =>
      rw [hv] at h
      cases h
    | ok values =>
      rw [hv] at h
      cases h
      refine ⟨fun hnil => hstop ?_, rfl, values.value, rfl⟩
      rw [hnil]
      rfl

/-- Each step but the last uses up some of the steps that remain. -/
theorem remaining_advance_lt {p p' : Propagation} {c d : Circuit} {step : Step}
    (h : p.advance c = ⟨.ok step, p', d⟩) (hs : step ≠ .finished) :
    p'.remaining d < p.remaining c := by
  obtain ⟨step?⟩ := p
  cases step? with
  | none =>
    cases h
    exact unmarked_start_lt c
  | some n =>
    obtain ⟨hne, rfl, value, rfl⟩ := continueFrom_of_reached h hs
    show ((c.activateAll c.frontier).applyValues value).unmarked.length < c.unmarked.length
    rw [Circuit.length_unmarked_applyValues]
    exact Circuit.length_unmarked_frontier_lt hne

/-! ## Enough fuel -/

/-- What the steps of a history come to. -/
def History.run (h : History) : Run :=
  { result :=
      match h.error? with
      | some e => .error e
      | none => .ok (h.steps.map Step.gates)
    propagation := h.propagation
    circuit := h.circuit }

theorem run_eq (p : Propagation) (c : Circuit) : p.run c = (p.history c).run := rfl

theorem historyFor_of_step {p p' : Propagation} {c d : Circuit} {step : Step} {fuel : Nat}
    (h : p.advance c = ⟨.ok step, p', d⟩) (hs : step ≠ .finished) :
    (historyFor (fuel + 1) p c).run = (historyFor fuel p' d).run.after step := by
  have hhistory : historyFor (fuel + 1) p c =
      { historyFor fuel p' d with steps := step :: (historyFor fuel p' d).steps } := by
    rw [historyFor, h]
    cases step with
    | finished => exact absurd rfl hs
    | sources gates => rfl
    | reached n gates values => rfl
  rw [hhistory]
  unfold History.run Run.after
  cases (historyFor fuel p' d).error? <;> rfl

/-- With fuel for more advances than reach a gate the propagation ends. -/
theorem exists_runs_historyFor {fuel : Nat} {p : Propagation} {c : Circuit}
    (h : p.remaining c < fuel) :
    ∃ n ≤ p.remaining c + 1, p.Runs c n (historyFor fuel p c).run := by
  induction fuel generalizing p c with
  | zero => omega
  | succ fuel ih =>
    rcases ha : p.advance c with ⟨e | step, p', d⟩
    · refine ⟨1, by omega, ?_⟩
      rw [historyFor, ha]
      exact .failed ha
    · by_cases hs : step = .finished
      · subst hs
        refine ⟨1, by omega, ?_⟩
        rw [historyFor, ha]
        exact .finished ha
      · have hlt := remaining_advance_lt ha hs
        obtain ⟨n, hn, hruns⟩ := ih (lt_of_lt_of_le hlt (Nat.lt_succ_iff.mp h))
        refine ⟨n + 1, by omega, ?_⟩
        rw [historyFor_of_step ha hs]
        exact .step ha hs hruns

/-- A run advances the propagation until it ends, at most two more times than there are gates. -/
theorem exists_runs (p : Propagation) (c : Circuit) :
    ∃ n ≤ c.gates.length + 2, p.Runs c n (p.run c) := by
  have hle := p.remaining_le c
  have hfuel : p.remaining c < c.gates.length + 2 := by omega
  obtain ⟨n, hn, hruns⟩ := exists_runs_historyFor hfuel
  rw [run_eq]
  exact ⟨n, by omega, hruns⟩

end Propagation

end LogicCircuit
