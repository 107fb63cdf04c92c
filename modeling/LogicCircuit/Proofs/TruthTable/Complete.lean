import LogicCircuit.Proofs.Assignment.Digits
import LogicCircuit.Proofs.Evaluation.Locality
import LogicCircuit.TruthTable.Basic

/-!
# Truth tables are complete

A table lists the assignments of the letters of a circuit as ascending binary numbers, each with
what the circuit evaluates to under it, and under every other assignment that agrees with it on
those letters. Tabulating a circuit uses its inputs as storage, row by row; since an evaluation
reads no stored value, nothing of that shows but the inputs being unset in the end.

Results:
* `tabulate_eq_stepwise`: a tabulation is what storing one assignment after the other in the inputs
  and evaluating the circuit each time comes to.
* `exists_completeTable`: the table of an acyclic circuit is complete.
* `tabulate_exact`: the table, the reports and the circuit afterwards.
-/

namespace LogicCircuit.Circuit

variable {c : Circuit}

/-! ## Row by row -/

/-- Tabulate by going through some assignments, given by their numbers: each one is stored in the
inputs and evaluated, its row is added to the table, and its number is reported. A loop ends the
tabulation. In either case the inputs are unset at the end. -/
def tabulateRows (total : Nat) : List Nat → TruthTable → List (Nat × Nat) → Circuit → Tabulation
  | [], t, reports, c => ⟨.ok t, reports, c.resetInputs⟩
  | n :: rest, t, reports, c =>
    let s := Assignment.ofDigits t.letters n
    let c := c.setInputs s
    match c.evaluate s with
    | .error e => ⟨.error (.loop e), reports, c.resetInputs⟩
    | .ok e =>
      let row : Row := ⟨s.toList.map (·.2), t.sinks.map e.value⟩
      tabulateRows total rest { t with rows := t.rows ++ [row] } (reports ++ [(n + 1, total)]) c

/-- Tabulate a circuit row by row. -/
def tabulateStepwise (c : Circuit) (limits : Limits) : Tabulation :=
  let letters := c.letters
  if limits.tableLetters < letters.length then
    ⟨.error (.tooLarge letters.length limits.tableLetters), [], c⟩
  else if letters.isEmpty || c.sinks.isEmpty then ⟨.ok ⟨letters, c.sinks, []⟩, [], c⟩
  else
    let total := Assignment.count letters
    tabulateRows total (List.range total) ⟨letters, c.sinks, []⟩ [] c

theorem evaluate_setInputs (s t : Assignment) : (c.setInputs s).evaluate t = c.evaluate t :=
  evaluate_of_skeleton (c.skeleton_setInputs s) t

theorem resetInputs_setInputs (s : Assignment) : (c.setInputs s).resetInputs = c.resetInputs := by
  unfold resetInputs setInputs mapInputs mapGates
  rw [List.map_map]
  simp only [mk.injEq, and_true]
  refine List.map_congr_left fun g _ => ?_
  cases hk : g.kind <;> simp [hk]

/-- A circuit that differs from another one in the values of its inputs only. -/
structure InputsOnly (c d : Circuit) : Prop where
  evaluate : ∀ s, d.evaluate s = c.evaluate s
  resetInputs : d.resetInputs = c.resetInputs

theorem InputsOnly.refl (c : Circuit) : c.InputsOnly c := ⟨fun _ => rfl, rfl⟩

theorem InputsOnly.setInputs {d : Circuit} (h : c.InputsOnly d) (s : Assignment) :
    c.InputsOnly (d.setInputs s) :=
  ⟨fun t => (evaluate_setInputs s t).trans (h.evaluate t),
    (resetInputs_setInputs s).trans h.resetInputs⟩

/-- What going through some rows adds to a table. -/
theorem tabulateRows_of_plan {gates : List Gate} (hp : c.plan = .ok gates) {total : Nat}
    {numbers : List Nat} {t : TruthTable} {reports : List (Nat × Nat)} {d : Circuit}
    (hd : c.InputsOnly d) (ht : t.sinks = c.sinks) :
    tabulateRows total numbers t reports d =
      ⟨.ok { t with rows := t.rows ++ numbers.map (c.row gates t.letters) },
        reports ++ numbers.map fun n => (n + 1, total), c.resetInputs⟩ := by
  induction numbers generalizing t reports d with
  | nil => simp [tabulateRows, hd.resetInputs]
  | cons n rest ih =>
    have hd' := hd.setInputs (Assignment.ofDigits t.letters n)
    have heval := (hd'.evaluate (Assignment.ofDigits t.letters n)).trans
      (congrArg (Except.map _) hp)
    have hrow : (⟨(Assignment.ofDigits t.letters n).toList.map (·.2),
        t.sinks.map (c.evaluateAlong gates (Assignment.ofDigits t.letters n)).value⟩ : Row) =
        c.row gates t.letters n := by
      rw [ht]
      rfl
    rw [tabulateRows, heval]
    simp only [Except.map, hrow]
    refine (ih (t := { t with rows := t.rows ++ [c.row gates t.letters n] }) hd' ht).trans ?_
    simp

theorem tabulateRows_of_loop {e : LoopError} (hp : c.plan = .error e) {total n : Nat}
    {rest : List Nat} {t : TruthTable} {reports : List (Nat × Nat)} :
    tabulateRows total (n :: rest) t reports c = ⟨.error (.loop e), reports, c.resetInputs⟩ := by
  have heval : (c.setInputs (Assignment.ofDigits t.letters n)).evaluate
      (Assignment.ofDigits t.letters n) = .error e :=
    (evaluate_setInputs _ _).trans (congrArg (Except.map _) hp)
  rw [tabulateRows, heval]
  simp only [resetInputs_setInputs]

/-- There is always a first row. -/
theorem exists_range_count (letters : List Char) :
    ∃ n rest, List.range (Assignment.count letters) = n :: rest := by
  refine List.exists_cons_of_ne_nil ?_
  simp [Assignment.count_eq]

/-- A tabulation is what going through the rows comes to. -/
theorem tabulate_eq_stepwise (c : Circuit) (limits : Limits) :
    c.tabulate limits = c.tabulateStepwise limits := by
  unfold tabulate tabulateStepwise truthTable tabulates
  by_cases hlarge : limits.tableLetters < c.letters.length
  · simp [hlarge]
  by_cases hempty : (c.letters.isEmpty || c.sinks.isEmpty) = true
  · have hno : (!c.letters.isEmpty && !c.sinks.isEmpty) = false := by
      rw [← Bool.not_or, hempty]
      rfl
    simp only [if_neg hlarge, if_pos hempty, Bool.and_assoc, hno, Bool.and_false]
    rfl
  · have hyes : (decide (c.letters.length ≤ limits.tableLetters) && !c.letters.isEmpty &&
        !c.sinks.isEmpty) = true := by
      rw [Bool.and_assoc, ← Bool.not_or, Bool.eq_false_iff.mpr hempty]
      simpa using hlarge
    simp only [if_neg hlarge, if_neg hempty, if_pos hyes]
    cases hp : c.plan with
    | error e =>
      obtain ⟨n, rest, hr⟩ := exists_range_count c.letters
      rw [hr, tabulateRows_of_loop hp]
    | ok gates =>
      rw [tabulateRows_of_plan hp (.refl c) rfl]
      simp

/-! ## Complete tables -/

/-- The table lists every assignment of the letters of a circuit once, in ascending order, with the
outputs under each assignment that agrees with it on those letters. -/
structure CompleteTable (c : Circuit) (t : TruthTable) : Prop where
  letters : t.letters = c.registry.letters
  sinks : t.sinks = c.sinks
  sinks_ne_nil : t.sinks ≠ []
  count : t.rows.length = 2 ^ t.letters.length
  /-- The inputs of a row are the binary digits of its rank, the first letter taking the highest
  one. -/
  inputs : t.rows.map (·.inputs) =
    (List.range (2 ^ t.letters.length)).map (binaryDigits t.letters.length)
  ascending : t.rows.Pairwise fun r r' => binary r.inputs < binary r'.inputs
  outputs : ∀ r ∈ t.rows, ∀ s : Assignment, t.letters.map s.get? = r.inputs.map some →
    ∃ e, c.evaluate s = .ok e ∧ r.outputs = t.sinks.map e.value

theorem CompleteTable.inputs_getElem {t : TruthTable} (ht : c.CompleteTable t) {i : Nat}
    (hi : i < t.rows.length) : t.rows[i].inputs = binaryDigits t.letters.length i := by
  have h := List.getElem_of_eq ht.inputs (i := i) (by simpa using hi)
  simpa using h

theorem row_outputs (hc : c.WellFormed) {gates : List Gate} (hp : c.plan = .ok gates) {n : Nat}
    {s : Assignment} (h : c.letters.map s.get? = (c.row gates c.letters n).inputs.map some) :
    ∃ e, c.evaluate s = .ok e ∧ (c.row gates c.letters n).outputs = c.sinks.map e.value := by
  have hinputs : (c.row gates c.letters n).inputs = binaryDigits c.letters.length n :=
    Assignment.map_snd_digitEntries _ _
  rw [hinputs] at h
  have hagree := Assignment.get?_eq_get?_ofDigits c.nodup_letters hc.toUpper_letters h
  refine ⟨c.evaluateAlong gates (Assignment.ofDigits c.letters n), ?_, rfl⟩
  rw [evaluate_congr hc hagree, evaluate, hp]
  rfl

theorem completeTable_of_plan (hc : c.WellFormed) {gates : List Gate} (hp : c.plan = .ok gates)
    (hs : c.sinks ≠ []) :
    c.CompleteTable ⟨c.letters, c.sinks,
      (List.range (2 ^ c.letters.length)).map (c.row gates c.letters)⟩ where
  letters := c.letters_registry.symm
  sinks := rfl
  sinks_ne_nil := hs
  count := by rw [List.length_map, List.length_range]
  inputs := by
    rw [List.map_map]
    exact List.map_congr_left fun n _ => Assignment.map_snd_digitEntries _ _
  ascending := by
    rw [List.pairwise_map]
    refine List.pairwise_lt_range.imp_of_mem fun {m n} hm hn hlt => ?_
    rw [List.mem_range] at hm hn
    show binary ((Assignment.digitEntries _ m).map (·.2)) <
      binary ((Assignment.digitEntries _ n).map (·.2))
    rwa [Assignment.map_snd_digitEntries, Assignment.map_snd_digitEntries, binary_binaryDigits hm,
      binary_binaryDigits hn]
  outputs := by
    intro r hr s h
    obtain ⟨n, -, rfl⟩ := List.mem_map.mp hr
    exact row_outputs hc hp h

/-! ## The whole tabulation -/

/-- The gate with its value unset if it stands for a letter. -/
def withoutInput (g : Gate) : Gate :=
  if g.kind.letter?.isSome then { g with value := .unset } else g

theorem resetInputs_eq (c : Circuit) :
    c.resetInputs = { c with gates := c.gates.map withoutInput } := by
  unfold resetInputs mapInputs mapGates
  simp only [mk.injEq, and_true]
  refine List.map_congr_left fun g _ => ?_
  unfold withoutInput
  cases hk : g.kind <;> simp [GateKind.letter?]

/-- What tabulating a circuit comes to. -/
structure TabulatesExactly (c : Circuit) (limits : Limits) : Prop where
  stepwise : c.tabulate limits = c.tabulateStepwise limits
  /-- There are no more letters than in the alphabet. -/
  alphabet : c.registry.letters.length ≤ 26
  /-- With more letters than the limit nothing is done. -/
  tooLarge : limits.tableLetters < c.registry.letters.length → c.tabulate limits =
    ⟨.error (.tooLarge c.registry.letters.length limits.tableLetters), [], c⟩
  /-- Without letters there are no rows. -/
  noLetters : c.registry.letters = [] → c.tabulate limits = ⟨.ok ⟨[], c.sinks, []⟩, [], c⟩
  /-- The table of an acyclic circuit is complete, every row is reported, and the inputs of the
  circuit are unset. -/
  complete : c.registry.letters.length ≤ limits.tableLetters → c.registry.letters ≠ [] →
    c.Acyclic → ∃ t, c.CompleteTable t ∧ c.tabulate limits =
      ⟨.ok t, (List.range (2 ^ t.letters.length)).map fun i => (i + 1, 2 ^ t.letters.length),
        { c with gates := c.gates.map withoutInput }⟩
  /-- A loop is found before the first row. -/
  loop : c.registry.letters.length ≤ limits.tableLetters → c.registry.letters ≠ [] →
    ¬ c.Acyclic → c.sinks ≠ [] → ∃ id, c.OnLoop id ∧ c.tabulate limits =
      ⟨.error (.loop ⟨id⟩), [], { c with gates := c.gates.map withoutInput }⟩

theorem tabulate_of_plan {gates : List Gate} (hp : c.plan = .ok gates) {limits : Limits}
    (hk : c.letters.length ≤ limits.tableLetters) (hl : c.letters ≠ []) (hs : c.sinks ≠ []) :
    c.tabulate limits =
      ⟨.ok ⟨c.letters, c.sinks, (List.range (2 ^ c.letters.length)).map (c.row gates c.letters)⟩,
        (List.range (2 ^ c.letters.length)).map fun i => (i + 1, 2 ^ c.letters.length),
        { c with gates := c.gates.map withoutInput }⟩ := by
  rw [tabulate_eq_stepwise, tabulateStepwise]
  simp only [if_neg hk.not_gt, List.isEmpty_iff, hl, hs, Bool.or_eq_true, or_self, if_false]
  rw [tabulateRows_of_plan hp (.refl c) rfl, Assignment.count_eq, resetInputs_eq]
  simp only [List.nil_append]

/-- Within the limit, the table of an acyclic circuit with letters is complete. -/
theorem exists_completeTable (hc : c.WellFormed) (hacyclic : c.Acyclic) {limits : Limits}
    (hk : c.letters.length ≤ limits.tableLetters) (hl : c.letters ≠ []) :
    ∃ t, c.CompleteTable t ∧ c.tabulate limits =
      ⟨.ok t, (List.range (2 ^ t.letters.length)).map fun i => (i + 1, 2 ^ t.letters.length),
        { c with gates := c.gates.map withoutInput }⟩ := by
  obtain ⟨gates, hp⟩ := exists_plan hc hacyclic
  have hgates : c.gates ≠ [] := fun he => hl (by simp [letters, he])
  have hs := hc.sinks_ne_nil hacyclic hgates
  exact ⟨_, completeTable_of_plan hc hp hs, tabulate_of_plan hp hk hl hs⟩

theorem tabulate_of_loop {e : LoopError} (hp : c.plan = .error e) {limits : Limits}
    (hk : c.letters.length ≤ limits.tableLetters) (hl : c.letters ≠ []) (hs : c.sinks ≠ []) :
    c.tabulate limits =
      ⟨.error (.loop e), [], { c with gates := c.gates.map withoutInput }⟩ := by
  obtain ⟨n, rest, hr⟩ := exists_range_count c.letters
  rw [tabulate_eq_stepwise, tabulateStepwise]
  simp only [if_neg hk.not_gt, List.isEmpty_iff, hl, hs, Bool.or_eq_true, or_self, if_false]
  rw [hr, tabulateRows_of_loop hp, resetInputs_eq]

theorem tabulate_exact (hc : c.WellFormed) (ha : ∀ l ∈ c.registry.letters, l.isAlpha = true)
    (limits : Limits) : c.TabulatesExactly limits := by
  rw [letters_registry] at ha
  refine ⟨tabulate_eq_stepwise c limits, ?_, ?_, ?_, ?_, ?_⟩ <;> rw [letters_registry]
  · exact length_le_of_isAlpha c.nodup_letters hc.toUpper_letters ha
  · intro hk
    rw [tabulate_eq_stepwise, tabulateStepwise]
    simp only [if_pos hk]
  · intro hl
    rw [tabulate_eq_stepwise, tabulateStepwise]
    simp [hl]
  · exact fun hk hl hacyclic => exists_completeTable hc hacyclic hk hl
  · intro hk hl hcyclic hs
    cases hp : c.plan with
    | ok gates => exact absurd (acyclic_of_plan hc hp) hcyclic
    | error e => exact ⟨e.gate, plan_eq_error hc hp, tabulate_of_loop hp hk hl hs⟩

/-- Two gates of one letter and one of another, a conjunction that joins them out of order, and an
inverter beside them that nothing drives. -/
def lettersTwice : Circuit :=
  [Edit.addGate (.var 'b') {}, .addGate (.var 'a') {}, .addGate (.var 'B') {},
    .addGate (.binary .and) {}, .addGate (.binary .or) {}, .addGate .not {}, .connect 1 3 0,
    .connect 0 3 1, .connect 3 4 0, .connect 2 4 1, .setInput 'a' (.known true)].foldl
      Edit.apply empty

theorem lettersTwice_wellFormed : lettersTwice.WellFormed := by
  have hr : lettersTwice.Reachable := Reachable.empty.edits
    ⟨(by decide : 0 < idBound), (by decide : 1 < idBound), (by decide : 2 < idBound),
      (by decide : 3 < idBound), (by decide : 4 < idBound), (by decide : 5 < idBound), trivial,
      trivial, trivial, trivial, trivial, trivial⟩
  exact hr.wellFormed

theorem lettersTwice_acyclic : lettersTwice.Acyclic :=
  acyclic_of_plan lettersTwice_wellFormed
    (by decide : lettersTwice.plan = .ok ([0, 1, 2, 3, 4, 5].filterMap lettersTwice.gate?))

theorem lettersTwice_isAlpha : ∀ l ∈ lettersTwice.registry.letters, l.isAlpha = true :=
  List.all_eq_true.mp (by decide)

theorem tabulate_exact_lettersTwice :
    lettersTwice.WellFormed ∧ (∀ l ∈ lettersTwice.registry.letters, l.isAlpha = true) ∧
      lettersTwice.TabulatesExactly {} ∧ lettersTwice.Acyclic ∧
      lettersTwice.TabulatesExactly { tableLetters := 1 } :=
  ⟨lettersTwice_wellFormed, lettersTwice_isAlpha,
    tabulate_exact lettersTwice_wellFormed lettersTwice_isAlpha {}, lettersTwice_acyclic,
    tabulate_exact lettersTwice_wellFormed lettersTwice_isAlpha _⟩

end LogicCircuit.Circuit
