import LogicCircuit.Proofs.Equivalence
import LogicCircuit.Proofs.Structure.Ranks
import LogicCircuit.TruthTable.Basic

/-!
# Circuits of the same structure mean the same

Whatever is computed from a circuit is computed from its gates and wires. Circuits of the same
structure have the same gates under other names, which keep the ranks; so all that they come to is
the same, up to these names: values and loops, outputs, letters and tables. And the comparison of
the two finds no difference.

Results:
* `gatesOf_renames`, `row_renames`: the gates of letters and the rows of tables under other names.
* `sameStructure_congruence`: what circuits of the same structure have in common.
-/

namespace LogicCircuit.Circuit

variable {a b c d : Circuit} {r : GateId → GateId}

/-! ## Letters and rows under other names -/

theorem gatesOf_renames (hg : Renames r c.gates d.gates) (letter : Char) :
    d.gatesOf letter = (c.gatesOf letter).map r :=
  (hg.filter_kind (·.letter? = some letter)).map_id

theorem row_renames (hr : Function.Injective r) (hs : d.sinks = c.sinks.map r)
    {gates gates' : List Gate} (h : Renames r gates gates') (letters : List Char) (n : Nat) :
    d.row gates' letters n = c.row gates letters n := by
  unfold row
  simp only [evaluateAlong_renames hr hs h, Evaluation.outputs_rename hr]

/-! ## What circuits of the same structure have in common -/

/-- The evaluations have the same values at gates of the same rank, or fail at such gates. -/
inductive SameEvaluation (a b : Circuit) :
    Except LoopError Evaluation → Except LoopError Evaluation → Prop
  | values {e e' : Evaluation} (h : ∀ x y, a.SameRank b x y → e.value x = e'.value y) :
    SameEvaluation a b (.ok e) (.ok e')
  | loop {x y : GateId} (h : a.SameRank b x y) : SameEvaluation a b (.error ⟨x⟩) (.error ⟨y⟩)

/-- The tables have the same letters and rows, or are refused for the same reason. -/
inductive SameTable (a b : Circuit) :
    Except TableError TruthTable → Except TableError TruthTable → Prop
  | table {letters : List Char} {rows : List Row} {sinks sinks' : List GateId}
    (h : List.Forall₂ (a.SameRank b) sinks sinks') :
    SameTable a b (.ok ⟨letters, sinks, rows⟩) (.ok ⟨letters, sinks', rows⟩)
  | tooLarge (letters limit : Nat) :
    SameTable a b (.error (.tooLarge letters limit)) (.error (.tooLarge letters limit))
  | loop {x y : GateId} (h : a.SameRank b x y) :
    SameTable a b (.error (.loop ⟨x⟩)) (.error (.loop ⟨y⟩))

/-- The circuits come to the same, up to the identifiers of their gates. -/
structure SameMeaning (a b : Circuit) : Prop where
  /-- There are as many gates in both. -/
  gates : List.Forall₂ (a.SameRank b) a.ids b.ids
  evaluation : ∀ s, a.SameEvaluation b (a.evaluate s) (b.evaluate s)
  sinks : List.Forall₂ (a.SameRank b) a.sinks b.sinks
  /-- The letters are the same, in the same order. -/
  registry : List.Forall₂ (fun e e' => e.1 = e'.1 ∧ List.Forall₂ (a.SameRank b) e.2 e'.2)
    a.registry.entries b.registry.entries
  table : ∀ limits, a.SameTable b (a.tabulate limits).table (b.tabulate limits).table
  /-- Without loops they are equivalent. -/
  equivalent : a.Acyclic → b.Acyclic → ∀ limits : Limits,
    a.registry.letters.length ≤ limits.tableLetters → a.firstDifference? b limits = .ok none

section Translate

variable (ha : a.WellFormed) (hb : b.WellFormed) (h : a.sameStructure b = true)
include ha hb h

theorem forall₂_sameRank {l : List GateId} (hl : ∀ x ∈ l, x ∈ a.ids) :
    List.Forall₂ (a.SameRank b) l (l.map (a.translate b)) := by
  rw [List.forall₂_map_right_iff]
  exact List.forall₂_same.mpr fun x hx =>
    sameRank_translate ha hb (length_ids_of_sameStructure h) (hl x hx)

theorem injective_of_sameStructure : Function.Injective (a.translate b) :=
  translate_injective ha hb (length_ids_of_sameStructure h)

theorem sinks_eq_map_translate : b.sinks = a.sinks.map (a.translate b) :=
  sinks_of_renames ha hb (injective_of_sameStructure ha hb h) (renames_of_sameStructure ha hb h)

theorem sinks_of_sameStructure : List.Forall₂ (a.SameRank b) a.sinks b.sinks :=
  sinks_eq_map_translate ha hb h ▸ forall₂_sameRank ha hb h fun _ hx => (mem_sinks.mp hx).1

theorem evaluate_of_sameStructure (s : Assignment) :
    a.SameEvaluation b (a.evaluate s) (b.evaluate s) := by
  have hr := injective_of_sameStructure ha hb h
  have hlength := length_ids_of_sameStructure h
  rw [evaluate_renames hr (renames_of_sameStructure ha hb h) (sinks_eq_map_translate ha hb h) s]
  cases he : a.evaluate s with
  | error e =>
    have hloop := plan_eq_error ha (eq_error_of_map he)
    exact .loop (sameRank_translate ha hb hlength (OnLoop.mem_ids hloop))
  | ok e =>
    refine .values fun x y hxy => ?_
    obtain ⟨-, rfl⟩ := (sameRank_iff ha hb hlength).mp hxy
    exact (Evaluation.value_rename hr e x).symm

theorem registry_of_sameStructure :
    List.Forall₂ (fun e e' => e.1 = e'.1 ∧ List.Forall₂ (a.SameRank b) e.2 e'.2)
      a.registry.entries b.registry.entries := by
  have hg := renames_of_sameStructure ha hb h
  show List.Forall₂ _ (a.letters.map fun l => (l, a.gatesOf l))
    (b.letters.map fun l => (l, b.gatesOf l))
  rw [letters_of_renames hg, List.forall₂_map_left_iff, List.forall₂_map_right_iff]
  refine List.forall₂_same.mpr fun letter _ => ⟨rfl, ?_⟩
  rw [gatesOf_renames hg letter]
  exact forall₂_sameRank ha hb h fun x hx =>
    (List.filter_sublist.map Gate.id).subset hx

theorem table_of_sameStructure (limits : Limits) :
    a.SameTable b (a.tabulate limits).table (b.tabulate limits).table := by
  have hr := injective_of_sameStructure ha hb h
  have hg := renames_of_sameStructure ha hb h
  have hs := sinks_eq_map_translate ha hb h
  have hsinks := sinks_of_sameStructure ha hb h
  have hempty : b.sinks.isEmpty = a.sinks.isEmpty := by rw [hs, List.isEmpty_map]
  have hplan := plan_renames hr hg
  show a.SameTable b (a.truthTable limits) (b.truthTable limits)
  unfold truthTable
  simp only [letters_of_renames hg, hempty]
  split_ifs
  · exact .tooLarge _ _
  · exact .table hsinks
  -- the plan of the second circuit is only known through that of the first one
  · cases hp : a.plan with
    | error e =>
      rw [hp] at hplan
      generalize b.plan = y at hplan ⊢
      cases hplan with
      | loop id =>
        exact .loop (sameRank_translate ha hb (length_ids_of_sameStructure h)
          (OnLoop.mem_ids (plan_eq_error ha hp)))
    | ok gates =>
      rw [hp] at hplan
      generalize b.plan = y at hplan ⊢
      cases hplan with
      | @finished _ gates' hgates =>
        have hrows : b.row gates' = a.row gates := funext₂ (row_renames hr hs hgates)
        simp only [hrows]
        exact .table hsinks

theorem firstDifference?_of_sameStructure (hacyclic : a.Acyclic) {limits : Limits}
    (hk : a.registry.letters.length ≤ limits.tableLetters) :
    a.firstDifference? b limits = .ok none := by
  have hr := injective_of_sameStructure ha hb h
  have hg := renames_of_sameStructure ha hb h
  have hs := sinks_eq_map_translate ha hb h
  have hagree : ∀ s, a.AgreeUnder b s := by
    intro s
    obtain ⟨e, he, -⟩ := evaluate_acyclic ha hacyclic s
    refine ⟨e, e.rename (a.translate b), he, ?_, ?_⟩
    · rw [evaluate_renames hr hg hs s, he]
    · unfold Evaluation.firstOutput
      rw [Evaluation.outputs_rename hr]
  have hletters : a.commonLetters b = a.registry.letters := by
    have hnone : a.letters.filter (fun l => !a.letters.contains l) = [] :=
      List.filter_eq_nil_iff.mpr fun l hl => by simpa using hl
    rw [commonLetters_eq, letters_of_renames hg, hnone, List.append_nil, letters_registry]
  exact firstDifference?_of_agree hagree (hletters ▸ hk)

end Translate

/-- Having the same structure is an equivalence, and whatever is computed from circuits of the same
structure is the same, up to the identifiers of their gates. -/
theorem sameStructure_congruence :
    (Equivalence fun a b : { c : Circuit // c.WellFormed } => a.1.sameStructure b.1 = true) ∧
    ∀ a b : Circuit, a.WellFormed → b.WellFormed → a.sameStructure b = true → a.SameMeaning b := by
  refine ⟨⟨fun a => ?_, fun {a b} h => ?_, fun {a b c} h h' => ?_⟩, fun a b ha hb h => ?_⟩
  · exact sameStructure_iff.mpr ⟨rfl, rfl⟩
  · obtain ⟨hw, hs⟩ := sameStructure_iff.mp h
    exact sameStructure_iff.mpr ⟨hw.symm, hs.symm⟩
  · obtain ⟨hw, hs⟩ := sameStructure_iff.mp h
    obtain ⟨hw', hs'⟩ := sameStructure_iff.mp h'
    exact sameStructure_iff.mpr ⟨hw.trans hw', hs.trans hs'⟩
  · have hids : b.ids = a.ids.map (a.translate b) :=
      ids_eq_map_translate ha hb (length_ids_of_sameStructure h)
    exact {
      gates := hids ▸ forall₂_sameRank ha hb h fun x hx => hx
      evaluation := evaluate_of_sameStructure ha hb h
      sinks := sinks_of_sameStructure ha hb h
      registry := registry_of_sameStructure ha hb h
      table := table_of_sameStructure ha hb h
      equivalent := fun hacyclic _ limits hk =>
        firstDifference?_of_sameStructure ha hb h hacyclic hk }

/-- An inverter behind a letter. -/
def inverted : Circuit :=
  [Edit.addGate (.var 'a') {}, .addGate .not {}, .connect 0 1 0].foldl Edit.apply empty

/-- The same, with greater identifiers. -/
def invertedLate : Circuit :=
  [Edit.addGate (.const true) {}, .addGate (.var 'A') {}, .addGate .not {}, .removeGate 0,
    .connect 1 2 0].foldl Edit.apply empty

/-- An inverter behind a ring of two others. -/
def ringed : Circuit :=
  [Edit.addGate .not {}, .addGate .not {}, .addGate .not {}, .connect 0 1 0, .connect 1 0 0,
    .connect 1 2 0].foldl Edit.apply empty

/-- The same, with greater identifiers and the wires in another order. -/
def ringedLate : Circuit :=
  [Edit.addGate (.const true) {}, .addGate .not {}, .addGate .not {}, .addGate .not {},
    .removeGate 0, .connect 2 3 0, .connect 2 1 0, .connect 1 2 0].foldl Edit.apply empty

theorem sameStructure_congruence_late :
    (inverted.WellFormed ∧ invertedLate.WellFormed ∧ inverted.sameStructure invertedLate = true ∧
      inverted.SameMeaning invertedLate ∧ inverted.sinks = [1] ∧ invertedLate.sinks = [2]) ∧
    ringed.WellFormed ∧ ringedLate.WellFormed ∧ ringed.sameStructure ringedLate = true ∧
      ringed.SameMeaning ringedLate ∧ ringed.evaluate {} = .error ⟨0⟩ ∧
      ringedLate.evaluate {} = .error ⟨1⟩ := by
  have hi : inverted.Reachable := Reachable.empty.edits
    ⟨(by decide : 0 < idBound), (by decide : 1 < idBound), trivial, trivial⟩
  have hil : invertedLate.Reachable := Reachable.empty.edits
    ⟨(by decide : 0 < idBound), (by decide : 1 < idBound), (by decide : 2 < idBound), trivial,
      trivial, trivial⟩
  have hr : ringed.Reachable := Reachable.empty.edits
    ⟨(by decide : 0 < idBound), (by decide : 1 < idBound), (by decide : 2 < idBound), trivial,
      trivial, trivial, trivial⟩
  have hrl : ringedLate.Reachable := Reachable.empty.edits
    ⟨(by decide : 0 < idBound), (by decide : 1 < idBound), (by decide : 2 < idBound),
      (by decide : 3 < idBound), trivial, trivial, trivial, trivial, trivial⟩
  have hsame : inverted.sameStructure invertedLate = true := by decide
  have hsame' : ringed.sameStructure ringedLate = true := by decide
  exact ⟨⟨hi.wellFormed, hil.wellFormed, hsame,
      sameStructure_congruence.2 _ _ hi.wellFormed hil.wellFormed hsame, by decide, by decide⟩,
    hr.wellFormed, hrl.wellFormed, hsame',
    sameStructure_congruence.2 _ _ hr.wellFormed hrl.wellFormed hsame', by decide, by decide⟩

end LogicCircuit.Circuit
