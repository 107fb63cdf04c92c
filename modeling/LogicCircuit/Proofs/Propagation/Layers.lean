import LogicCircuit.Proofs.Circuit.Depth
import LogicCircuit.Proofs.Circuit.Loops
import LogicCircuit.Proofs.Propagation.Halting

/-!
# A run goes through the levels

The levels that a propagation goes through and the levels that the statistics compute are found in
different ways: one gate after the other along a dependency order there, all gates of a level at
once here. In an acyclic circuit without empty slots both are the length of the longest path that
goes on from a gate, so a complete run takes as many steps as the circuit is deep, and reaches every
gate in the step of its level.

Results:
* `hasLevel_iff_longestFrom`: the level of a gate is the length of its longest path.
* `exists_hasLevel_iff`: there are gates of each level up to the depth of the circuit.
* `Marked.runs`: what a run comes to that goes on from some level.
* `run_exact`: every run ends, and what a complete run comes to.
-/

namespace LogicCircuit

namespace Circuit

variable {c : Circuit}

/-! ## Levels and paths -/

theorem foldl_max_succ {level : GateId → Nat} {l : List GateId} (h : l ≠ []) :
    l.foldl (fun n d => max n (level d + 1)) 0 = 1 + l.toFinset.sup level := by
  refine (isGreatest_foldl_max (fun d => level d + 1) l).unique ⟨?_, ?_⟩
  · obtain ⟨d, hd, hsup⟩ :=
      Finset.exists_mem_eq_sup _ ((List.toFinset_nonempty_iff _).mpr h) level
    exact Or.inr ⟨d, List.mem_toFinset.mp hd, by rw [hsup, add_comm]⟩
  · rintro _ (rfl | ⟨d, hd, rfl⟩)
    · exact Nat.zero_le _
    · have hle : level d ≤ l.toFinset.sup level := Finset.le_sup (List.mem_toFinset.mpr hd)
      omega

/-- The level of a gate is the length of the longest path that goes on from it. -/
theorem HasLevel.longestFrom {id : GateId} {n : Nat} (h : c.HasLevel id n) (hc : c.WellFormed) :
    c.LongestFrom id n := by
  induction h with
  | @source g hg h0 =>
    have hnone : ∀ d ∈ g.inputs, c.LongestFrom d 0 := by simp [hc.inputs_eq_nil hg h0]
    have hpath := LongestFrom.of_inputs hc hg hnone
    rwa [hc.inputs_eq_nil hg h0] at hpath
  | behind hg hne level _ ih =>
    have hpath := LongestFrom.of_inputs hc hg ih
    rwa [foldl_max_succ hne] at hpath

/-- No level is greater than the depth of the circuit. -/
theorem HasLevel.le_depth {id : GateId} {n depth : Nat} (h : c.HasLevel id n) (hc : c.WellFormed)
    (ha : c.Acyclic) (hdepth : c.depth? = some depth) : n ≤ depth := by
  obtain ⟨depth', hdepth', -, hle⟩ := exists_depth hc ha
  obtain rfl := Option.some.inj (hdepth.symm.trans hdepth')
  obtain ⟨rest, hrest, rfl⟩ := (h.longestFrom hc).1
  exact hle ⟨id :: rest, hrest, rfl⟩

/-- Every slot of every gate is filled. -/
def IsComplete (c : Circuit) : Prop := ∀ g ∈ c.gates, g.isComplete = true

theorem inputs_ne_nil_of_isComplete {g : Gate} (hs : g.slots.length = g.kind.arity)
    (hg : g.isComplete = true) (h : g.kind.arity ≠ 0) : g.inputs ≠ [] := by
  obtain ⟨s, hmem⟩ := List.exists_mem_of_ne_nil g.slots fun hnil => h (by rw [← hs, hnil]; rfl)
  obtain ⟨d, rfl⟩ := Option.isSome_iff_exists.mp (List.all_eq_true.mp hg s hmem)
  exact List.ne_nil_of_mem (List.mem_filterMap.mpr ⟨some d, hmem, rfl⟩)

section Complete

variable (hc : c.WellFormed) (ha : c.Acyclic) (hcomplete : c.IsComplete)
include hc ha hcomplete

/-- Every gate of an acyclic circuit without empty slots has a level. -/
theorem exists_hasLevel {id : GateId} (hid : id ∈ c.ids) : ∃ n, c.HasLevel id n := by
  induction ha.acc id with
  | intro id _ ih =>
    obtain ⟨g, hg, rfl⟩ := mem_ids.mp hid
    by_cases h0 : g.kind.arity = 0
    · exact ⟨0, .source hg h0⟩
    · have hin : ∀ d ∈ g.inputs, ∃ n, c.HasLevel d n :=
        fun d hd => ih d ⟨g, hg, rfl, hd⟩ (hc.input_mem hg hd)
      choose! level hlevel using hin
      have hne := inputs_ne_nil_of_isComplete (hc.arity g hg) (hcomplete g hg) h0
      exact ⟨_, .behind hg hne level hlevel⟩

theorem hasLevel_iff_longestFrom {id : GateId} {n : Nat} :
    c.HasLevel id n ↔ c.LongestFrom id n := by
  refine ⟨fun h => h.longestFrom hc, fun h => ?_⟩
  obtain ⟨path, hpath, -⟩ := h.1
  obtain ⟨m, hm⟩ := exists_hasLevel hc ha hcomplete (hpath.mem id List.mem_cons_self)
  rwa [h.unique (hm.longestFrom hc)]

/-- Behind the sources there are gates of each level up to the depth of the circuit, and of no
other. -/
theorem exists_hasLevel_iff {depth n : Nat} (hdepth : c.depth? = some depth) (hn : 0 < n) :
    (∃ id, c.HasLevel id n) ↔ n ≤ depth := by
  refine ⟨fun ⟨_, h⟩ => h.le_depth hc ha hdepth, fun hle => ?_⟩
  obtain ⟨depth', hdepth', ⟨path, hpath, hlength⟩, -⟩ := exists_depth hc ha
  obtain rfl := Option.some.inj (hdepth.symm.trans hdepth')
  -- the first gate of a longest path has the highest level, and no level below is skipped
  cases path with
  | nil =>
    rw [List.length_nil] at hlength
    omega
  | cons id rest =>
    obtain ⟨m, hm⟩ := exists_hasLevel hc ha hcomplete (hpath.mem id List.mem_cons_self)
    have hrest : rest.length ≤ m := (hm.longestFrom hc).2 ⟨rest, hpath, rfl⟩
    exact hm.exists_of_le hc (hle.trans (hlength ▸ hrest))

end Complete

/-! ## What a propagation leaves alone -/

/-- The circuit without its marks, and without the values of all gates but those of letters. -/
def lasting (c : Circuit) : Circuit := c.clearActivity.applyValues fun _ => .unset

theorem lasting_activateAll (c : Circuit) (ids : List GateId) :
    (c.activateAll ids).lasting = c.lasting := by
  rw [lasting, clearActivity_activateAll, lasting]

theorem lasting_clearActivity (c : Circuit) : c.clearActivity.lasting = c.lasting := by
  unfold lasting clearActivity
  rw [List.map_map, List.map_map]
  rfl

theorem lasting_applyValues (c : Circuit) (value : GateId → Value) :
    (c.applyValues value).lasting = c.lasting := by
  unfold lasting applyValues clearActivity mapGates
  simp only [List.map_map, mk.injEq, and_true]
  refine List.map_congr_left fun g _ => ?_
  cases hk : g.kind <;> simp [hk]

/-! ## Level by level -/

/-- The gates of a level, in ascending order. -/
structure IsLevel (c : Circuit) (n : Nat) (ids : List GateId) : Prop where
  ascending : ids.Pairwise (· < ·)
  mem : ∀ id, id ∈ ids ↔ c.HasLevel id n

theorem isLevel_sources (hc : c.WellFormed) : c.IsLevel 0 c.sources := by
  refine ⟨hc.ascending.sublist (List.filter_sublist.map _), fun id => ⟨fun hid => ?_, fun h => ?_⟩⟩
  · obtain ⟨g, hg, rfl⟩ := List.mem_map.mp (show id ∈ List.map _ _ from hid)
    have hmem := (List.mem_filter.mp hg).1
    exact (hasLevel_zero_iff hc hmem).mpr ((mem_sources hc hmem).mp hid)
  · obtain ⟨g, hg, rfl⟩ := mem_ids.mp h.mem_ids
    exact (mem_sources hc hg).mpr ((hasLevel_zero_iff hc hg).mp h)

theorem Marked.isLevel_frontier {n : Nat} (h : c.Marked n) (hc : c.WellFormed) :
    c.IsLevel (n + 1) c.frontier :=
  ⟨ascending_frontier hc, fun _ => h.mem_frontier hc⟩

/-- The lists hold the gates of one level after the other, from the given level on. -/
def LevelsFrom (c : Circuit) (n : Nat) (levels : List (List GateId)) : Prop :=
  ∀ i ids, levels[i]? = some ids → c.IsLevel (n + i) ids

theorem levelsFrom_nil {n : Nat} : c.LevelsFrom n [] := by simp [LevelsFrom]

theorem IsLevel.cons {n : Nat} {ids : List GateId} {levels : List (List GateId)}
    (h : c.IsLevel n ids) (hrest : c.LevelsFrom (n + 1) levels) :
    c.LevelsFrom n (ids :: levels) := by
  intro i l hi
  cases i with
  | zero =>
    cases hi
    exact h
  | succ i =>
    rw [show n + (i + 1) = n + 1 + i by omega]
    exact hrest i l hi

theorem levelsFrom_of_frames {d : Circuit} (h : d.gates.map Gate.frame = c.gates.map Gate.frame)
    {n : Nat} {levels : List (List GateId)} (hl : d.LevelsFrom n levels) :
    c.LevelsFrom n levels := by
  intro i ids hi
  obtain ⟨hascending, hmem⟩ := hl i ids hi
  exact ⟨hascending, fun id => (hmem id).trans (hasLevel_iff_of_frames h)⟩

/-- What the lists of the reached gates and the circuit are at the end of a run that goes on
through the given number of levels. -/
structure Finished (c : Circuit) (n k : Nat) (levels : List (List GateId)) (d : Circuit) :
    Prop where
  length : levels.length = k
  levels : c.LevelsFrom (n + 1) levels
  marked : d.Marked (n + k)
  skeleton : d.skeleton = c.skeleton
  lasting : d.lasting = c.lasting

/-- What a run comes to that goes on from a level of an acyclic circuit, if there are gates of the
next levels, as many as given, and of none behind them. -/
theorem Marked.runs {n k : Nat} (h : c.Marked n) (hc : c.WellFormed) (ha : c.Acyclic)
    (hk : ∀ m, n < m → ((∃ id, c.HasLevel id m) ↔ m ≤ n + k)) :
    ∃ levels d, Propagation.Runs ⟨some n⟩ c (k + 1) ⟨.ok levels, .idle, d⟩ ∧
      c.Finished n k levels d := by
  induction k generalizing c n with
  | zero =>
    have hnone : ∀ id, ¬ c.HasLevel id (n + 1) := by
      intro id hid
      have hle := (hk (n + 1) (by omega)).mp ⟨id, hid⟩
      omega
    exact ⟨[], c, .finished (h.continueFrom_of_no_level hc hnone), rfl, levelsFrom_nil, h, rfl,
      rfl⟩
  | succ k ih =>
    obtain ⟨id, hid⟩ := (hk (n + 1) (by omega)).mpr (by omega)
    obtain ⟨values, hv, -⟩ := evaluate_acyclic hc ha c.inputAssignment
    have hstep : Propagation.advance ⟨some n⟩ c = ⟨.ok (.reached (n + 1) c.frontier values),
        ⟨some (n + 1)⟩, (c.activateAll c.frontier).applyValues values.value⟩ :=
      (h.continueFrom_of_level hc hid).1 values hv
    -- the step leaves the frames as they are, so the levels behind it are the same ones
    have hskeleton : ((c.activateAll c.frontier).applyValues values.value).skeleton =
        c.skeleton := by simp
    have hframes := frames_of_skeleton hskeleton
    have hbehind : ∀ m, n + 1 < m →
        ((∃ id, ((c.activateAll c.frontier).applyValues values.value).HasLevel id m) ↔
          m ≤ n + 1 + k) := by
      intro m hm
      simp only [hasLevel_iff_of_frames hframes]
      rw [hk m (by omega), show n + (k + 1) = n + 1 + k by omega]
    obtain ⟨levels, d, hruns, hend⟩ := ih ((h.mark hc hid).applyValues values.value)
      (hc.of_skeleton_eq hskeleton) ((acyclic_iff_of_frames hframes).mpr ha) hbehind
    refine ⟨c.frontier :: levels, d, .step hstep (by simp) hruns, ?_, ?_, ?_, ?_, ?_⟩
    · rw [List.length_cons, hend.length]
    · exact (h.isLevel_frontier hc).cons (levelsFrom_of_frames hframes hend.levels)
    · rw [show n + (k + 1) = n + 1 + k by omega]
      exact hend.marked
    · exact hend.skeleton.trans hskeleton
    · rw [hend.lasting, lasting_applyValues, lasting_activateAll]

/-! ## Complete runs -/

/-- The lists hold the gates by the length of the longest path that goes on from them, from no
wire up to the depth of the circuit. -/
structure LayeredBy (c : Circuit) (depth : Nat) (levels : List (List GateId)) : Prop where
  length : levels.length = depth + 1
  ascending : ∀ ids ∈ levels, ids.Pairwise (· < ·)
  mem : ∀ n ids, levels[n]? = some ids → ∀ id, id ∈ ids ↔ c.LongestFrom id n
  /-- Every gate is in one of the lists, and in one only. -/
  once : levels.flatten.Perm c.ids

theorem layeredBy_of_levelsFrom (hc : c.WellFormed) (ha : c.Acyclic) (hcomplete : c.IsComplete)
    {depth : Nat} (hdepth : c.depth? = some depth) {levels : List (List GateId)}
    (hlength : levels.length = depth + 1) (hlevels : c.LevelsFrom 0 levels) :
    c.LayeredBy depth levels := by
  have hlevel : ∀ n ids, levels[n]? = some ids → c.IsLevel n ids := by
    simpa [LevelsFrom] using hlevels
  refine ⟨hlength, fun ids hids => ?_, fun n ids hn id => ?_, ?_⟩
  · obtain ⟨n, hn⟩ := List.mem_iff_getElem?.mp hids
    exact (hlevel n ids hn).ascending
  · rw [(hlevel n ids hn).mem, hasLevel_iff_longestFrom hc ha hcomplete]
  · have hmem : ∀ i (hi : i < levels.length) id, id ∈ levels[i] ↔ c.HasLevel id i :=
      fun i hi => (hlevel i _ (List.getElem?_eq_getElem hi)).mem
    have hnodup : levels.flatten.Nodup := by
      rw [List.nodup_flatten, List.pairwise_iff_getElem]
      refine ⟨fun ids hids => ?_, fun i j hi hj hlt id hid hid' => ?_⟩
      · obtain ⟨n, hn⟩ := List.mem_iff_getElem?.mp hids
        exact (hlevel n ids hn).ascending.imp fun hlt => hlt.ne
      · have heq := ((hmem i hi id).mp hid).unique hc ((hmem j hj id).mp hid')
        omega
    rw [List.perm_ext_iff_of_nodup hnodup hc.nodup_ids]
    intro id
    simp only [List.mem_flatten, List.mem_iff_getElem (l := levels)]
    constructor
    · rintro ⟨_, ⟨i, hi, rfl⟩, hid⟩
      exact ((hmem i hi id).mp hid).mem_ids
    · intro hid
      obtain ⟨n, hn⟩ := exists_hasLevel hc ha hcomplete hid
      have hlt : n < levels.length :=
        (Nat.lt_succ_of_le (hn.le_depth hc ha hdepth)).trans_eq hlength.symm
      exact ⟨levels[n], ⟨n, hlt, rfl⟩, (hmem n hlt id).mpr hn⟩

/-- What has become of a circuit at the end of a complete run. -/
structure CompletedBy (c : Circuit) (r : Propagation.Run) : Prop where
  idle : r.propagation = .idle
  gates : ∀ g ∈ r.circuit.gates, g.active = true
  wires : ∀ w ∈ r.circuit.wires, w.active = true
  /-- Only marks, and values of gates that stand for no letter, have changed. -/
  lasting : r.circuit.lasting = c.lasting

theorem Marked.allActive {n : Nat} (h : c.Marked n) (hc : c.WellFormed)
    (hall : ∀ id ∈ c.ids, c.ReachedBy n id) :
    (∀ g ∈ c.gates, g.active = true) ∧ ∀ w ∈ c.wires, w.active = true := by
  have hgates : ∀ g ∈ c.gates, g.active = true := fun g hg =>
    (h.gates g hg).mpr (hall g.id (mem_ids_of_mem hg))
  refine ⟨hgates, fun w hw => (h.wires w hw).mpr ?_⟩
  obtain ⟨g, hg, hid⟩ := mem_ids.mp (hc.target_mem hw)
  exact ⟨g, hg, hid, hgates g hg⟩

/-- What a run comes to that starts from nothing. -/
theorem runs_idle (hc : c.WellFormed) (ha : c.Acyclic) (hcomplete : c.IsComplete) {depth : Nat}
    (hdepth : c.depth? = some depth) :
    ∃ levels d, Propagation.Runs .idle c (depth + 2) ⟨.ok levels, .idle, d⟩ ∧
      c.LayeredBy depth levels ∧ c.CompletedBy ⟨.ok levels, .idle, d⟩ := by
  have hskeleton : (c.clearActivity.activateAll c.sources).skeleton = c.skeleton := by simp
  have hframes := frames_of_skeleton hskeleton
  have hbehind : ∀ m, 0 < m →
      ((∃ id, (c.clearActivity.activateAll c.sources).HasLevel id m) ↔ m ≤ 0 + depth) := by
    intro m hm
    simp only [hasLevel_iff_of_frames hframes]
    rw [exists_hasLevel_iff hc ha hcomplete hdepth hm, zero_add]
  obtain ⟨levels, d, hruns, hend⟩ := (marked_start hc).runs (hc.of_skeleton_eq hskeleton)
    ((acyclic_iff_of_frames hframes).mpr ha) hbehind
  have hd : d.skeleton = c.skeleton := hend.skeleton.trans hskeleton
  have hlayers : c.LayeredBy depth (c.sources :: levels) := by
    refine layeredBy_of_levelsFrom hc ha hcomplete hdepth ?_ ?_
    · rw [List.length_cons, hend.length]
    · exact (isLevel_sources hc).cons (levelsFrom_of_frames hframes hend.levels)
  have hreached : ∀ id ∈ d.ids, d.ReachedBy (0 + depth) id := by
    intro id hid
    rw [ids_of_frames (frames_of_skeleton hd)] at hid
    obtain ⟨n, hn⟩ := exists_hasLevel hc ha hcomplete hid
    rw [zero_add]
    exact ⟨n, hn.le_depth hc ha hdepth, (hasLevel_iff_of_frames (frames_of_skeleton hd)).mpr hn⟩
  obtain ⟨hgates, hwires⟩ := hend.marked.allActive (hc.of_skeleton_eq hd) hreached
  have hstart : Propagation.advance .idle c = ⟨.ok (.sources c.sources), ⟨some 0⟩,
      c.clearActivity.activateAll c.sources⟩ := rfl
  refine ⟨c.sources :: levels, d, .step hstart (by simp) hruns, hlayers, rfl, hgates, hwires, ?_⟩
  rw [hend.lasting, lasting_activateAll, lasting_clearActivity]

/-- What a run of a propagation through a circuit comes to. -/
structure RunsExactly (c : Circuit) (p : Propagation) : Prop where
  /-- Advancing the propagation again and again ends, after at most two more advances than there
  are gates. -/
  ends : ∃ n ≤ c.gates.length + 2, p.Runs c n (p.run c)
  /-- A run from the start through an acyclic circuit without empty slots goes through all gates,
  in as many steps behind the sources as the circuit is deep. -/
  layers : p.isIdle = true → c.Acyclic → c.IsComplete → ∃ depth levels,
    c.statistics.depth? = some depth ∧ (p.run c).result = .ok levels ∧
      c.LayeredBy depth levels ∧ c.CompletedBy (p.run c)

/-- Every run ends, whatever the state of the propagation and the marks of the circuit are, and a
complete run goes through the gates by the length of their longest paths. -/
theorem run_exact (hc : c.WellFormed) (p : Propagation) : c.RunsExactly p := by
  obtain ⟨n, hn, hruns⟩ := p.exists_runs c
  refine ⟨⟨n, hn, hruns⟩, fun hidle ha hcomplete => ?_⟩
  obtain ⟨depth, hdepth, -⟩ := exists_depth hc ha
  obtain ⟨levels, d, hrun, hlayers, hcompleted⟩ := runs_idle hc ha hcomplete hdepth
  obtain rfl : p = .idle := by
    obtain ⟨step?⟩ := p
    exact congrArg Propagation.mk (Option.isNone_iff_eq_none.mp hidle)
  obtain ⟨-, hresult⟩ := hruns.unique hrun
  rw [hresult]
  exact ⟨depth, levels, hdepth, rfl, hlayers, hcompleted⟩

/-- A letter drives the gates of three different levels; marks and values are left from a run that
was not completed. -/
def unequalPaths : Circuit :=
  [Edit.addGate (.binary .or) {}, .addGate (.binary .and) {}, .addGate .not {},
    .addGate (.var 'a') {}, .connect 1 0 0, .connect 3 0 1, .connect 2 1 0, .connect 3 1 1,
    .connect 3 2 0, .setInput 'a' (.known true), .advance .idle, .advance ⟨some 0⟩].foldl
      Edit.apply empty

/-- A propagation that has not been started goes through all levels. One that a loop stops ends as
well, even if it claims to have made more steps than there are gates. -/
theorem run_exact_unequalPaths_and_ring :
    (unequalPaths.WellFormed ∧ unequalPaths.RunsExactly .idle ∧ Propagation.idle.isIdle = true ∧
      unequalPaths.Acyclic ∧ unequalPaths.IsComplete ∧
      (Propagation.idle.run unequalPaths).result = .ok [[3], [2], [1], [0]]) ∧
    ringBeside.WellFormed ∧ ringBeside.RunsExactly ⟨some 7⟩ := by
  have hu : unequalPaths.Reachable := Reachable.empty.edits
    ⟨(by decide : 0 < idBound), (by decide : 1 < idBound), (by decide : 2 < idBound),
      (by decide : 3 < idBound), trivial, trivial, trivial, trivial, trivial, trivial, trivial,
      trivial, trivial⟩
  have hr : ringBeside.Reachable := Reachable.empty.edits
    ⟨(by decide : 0 < idBound), (by decide : 1 < idBound), (by decide : 2 < idBound), trivial,
      trivial, trivial⟩
  have hplan : unequalPaths.plan = .ok ([3, 2, 1, 0].filterMap unequalPaths.gate?) := by decide
  have hcomplete : unequalPaths.IsComplete := List.all_eq_true.mp (by decide)
  exact ⟨⟨hu.wellFormed, run_exact hu.wellFormed .idle, rfl, acyclic_of_plan hu.wellFormed hplan,
    hcomplete, by decide⟩, hr.wellFormed, run_exact hr.wellFormed ⟨some 7⟩⟩

end Circuit
end LogicCircuit
