import LogicCircuit.Circuit.Statistics
import LogicCircuit.Proofs.Circuit.Counting
import LogicCircuit.Proofs.Evaluation.Exact

/-!
# What is found about loops

Sorting, evaluating and measuring a circuit each look for loops in their own way. All of them find
one exactly if there is one. Which gate is reported differs: an evaluation reports a gate on a loop,
while sorting reports the smallest gate that it cannot reach, and that one may only depend on a
loop.

Results:
* `behindLoop_iff_not_acc`: a gate depends on a loop exactly if a chain of dependencies from it goes
  on forever.
* `notMem_sortable_iff`: the gates that cannot be sorted are those on a loop or behind one.
* `order_exact`: what sorting comes to, and that the other ways of finding a loop agree.
-/

namespace LogicCircuit.Circuit

variable {c : Circuit}

/-! ## Gates on loops and behind them -/

/-- The gate is on a loop, or depends on a gate that is. -/
def BehindLoop (c : Circuit) (id : GateId) : Prop :=
  ∃ a, c.OnLoop a ∧ Relation.ReflTransGen c.DependsOn id a

theorem BehindLoop.mem_ids {id : GateId} (h : c.BehindLoop id) : id ∈ c.ids := by
  obtain ⟨a, hloop, hid⟩ := h
  rcases Relation.ReflTransGen.cases_head hid with rfl | ⟨b, hb, -⟩
  · exact OnLoop.mem_ids hloop
  · exact mem_ids_of_dependsOn hb

/-- Along an endless chain of dependencies some gate comes twice, as there are only finitely many;
so the chain runs into a loop. -/
theorem behindLoop_of_chain {f : ℕ → GateId} (h : ∀ n, c.DependsOn (f n) (f (n + 1))) :
    c.BehindLoop (f 0) := by
  have hreach : ∀ m n, m ≤ n → Relation.ReflTransGen c.DependsOn (f m) (f n) := by
    intro m n hmn
    induction n, hmn using Nat.le_induction with
    | base => exact .refl
    | succ n _ ih => exact ih.tail (h n)
  have hmaps : Set.MapsTo f Set.univ {id | id ∈ c.ids} := fun n _ => mem_ids_of_dependsOn (h n)
  obtain ⟨m, -, n, -, hlt, he⟩ :=
    Set.infinite_univ.exists_lt_map_eq_of_mapsTo hmaps (List.finite_toSet c.ids)
  refine ⟨f m, ?_, hreach 0 m (Nat.zero_le m)⟩
  have hloop : Relation.TransGen c.DependsOn (f m) (f n) := .head' (h m) (hreach _ _ hlt)
  rwa [← he] at hloop

theorem not_acc_of_behindLoop {id : GateId} (h : c.BehindLoop id) :
    ¬ Acc (Function.swap c.DependsOn) id := by
  obtain ⟨a, hloop, hid⟩ := h
  intro hacc
  have hall : ∀ b, Relation.ReflTransGen c.DependsOn id b → Acc (Function.swap c.DependsOn) b := by
    intro b hb
    induction hb with
    | refl => exact hacc
    | tail _ hbc ih => exact ih.inv hbc
  have ha := hall a hid
  have hswap := Relation.transGen_swap.mpr hloop
  exact absurd (Acc.rank_lt_of_rel ha.transGen hswap) (lt_irrefl _)

theorem behindLoop_iff_not_acc {id : GateId} :
    c.BehindLoop id ↔ ¬ Acc (Function.swap c.DependsOn) id := by
  refine ⟨not_acc_of_behindLoop, fun h => ?_⟩
  obtain ⟨f, rfl, hf⟩ := not_acc_iff_exists_descending_chain.mp h
  exact behindLoop_of_chain hf

/-- Without loops no chain of dependencies goes on forever. -/
theorem Acyclic.acc (ha : c.Acyclic) (id : GateId) : Acc (Function.swap c.DependsOn) id := by
  by_contra h
  obtain ⟨a, hloop, -⟩ := behindLoop_iff_not_acc.mpr h
  exact ha a hloop

/-! ## What cannot be sorted -/

/-- The gates that cannot be sorted are those on a loop or behind one. -/
theorem notMem_sortable_iff (hc : c.WellFormed) {id : GateId} (hid : id ∈ c.ids) :
    id ∉ c.sortable ↔ c.BehindLoop id := by
  rw [behindLoop_iff_not_acc, not_iff_not]
  constructor
  · intro hmem
    obtain ⟨done, hd, hdone⟩ := (sorting_sortable hc).scheduled
    obtain ⟨g, hg, rfl⟩ := List.mem_map.mp (hdone ▸ hmem)
    exact hd.acc hc g hg
  · -- a gate all of whose dependencies are sorted has become ready itself
    intro hacc
    induction hacc with
    | intro id _ ih =>
      obtain ⟨g, hg, rfl⟩ := mem_ids.mp hid
      refine (isReady_sortable hc g.id).mp ((isReady_iff hc).mpr ⟨g, hg, rfl, fun d hd => ?_⟩)
      exact ih d ⟨g, hg, rfl, hd⟩ (hc.input_mem hg hd)

theorem find?_notMem_sortable (hc : c.WellFormed) {id : GateId}
    (h : c.ids.find? (!c.sortable.contains ·) = some id) : IsLeast {a | c.BehindLoop a} id := by
  have hp : ∀ a, (!c.sortable.contains a) = true ↔ a ∉ c.sortable := by
    intro a
    rw [Bool.not_eq_true', Bool.eq_false_iff, Ne, List.contains_iff_mem]
  obtain ⟨hno, before, behind, hids, hbefore⟩ := List.find?_eq_some_iff_append.mp h
  have hmem : id ∈ c.ids := List.mem_of_find?_eq_some h
  refine ⟨(notMem_sortable_iff hc hmem).mp ((hp id).mp hno), fun a ha => ?_⟩
  have hasc := hc.ascending
  have ha' := ha.mem_ids
  have hnot := (notMem_sortable_iff hc ha').mpr ha
  rw [hids] at hasc ha'
  rcases List.mem_append.mp ha' with hmem | hmem
  · exact absurd (by simpa using hbefore a hmem) hnot
  · rcases List.mem_cons.mp hmem with rfl | hmem
    · exact le_rfl
    · exact ((List.pairwise_cons.mp (List.pairwise_append.mp hasc).2.1).1 a hmem).le

/-- Each gate comes behind those it depends on. -/
theorem Scheduled.idxOf_lt {done : List Gate} (h : c.Scheduled done) (hc : c.WellFormed)
    {a b : GateId} (ha : a ∈ done.map (·.id)) (hab : c.DependsOn a b) :
    (done.map (·.id)).idxOf b < (done.map (·.id)).idxOf a := by
  induction h with
  | nil => simp at ha
  | @snoc done g hd hg hid hin ih =>
    obtain ⟨g', hg', rfl, hb⟩ := hab
    rw [List.map_append] at ha ⊢
    by_cases hold : g'.id ∈ done.map (·.id)
    · have hb' : b ∈ done.map (·.id) := by
        obtain ⟨g'', hg'', he⟩ := List.mem_map.mp hold
        obtain rfl := hc.eq_of_id_eq (hd.mem_gates g'' hg'') hg' he
        exact hd.input_mem g'' hg'' b hb
      rw [List.idxOf_append_of_mem hold, List.idxOf_append_of_mem hb']
      exact ih hold
    · have hlast : g'.id = g.id := by simpa [hold] using ha
      obtain rfl := hc.eq_of_id_eq hg' hg hlast
      rw [List.idxOf_append_of_mem (hin b hb), List.idxOf_append_of_notMem hold]
      exact (List.idxOf_lt_length_of_mem (hin b hb)).trans_le (Nat.le_add_right _ _)

theorem order_of_looped (hc : c.WellFormed) (ha : ¬ c.Acyclic) :
    ∃ id, c.order = .error ⟨id⟩ ∧ IsLeast {a | c.BehindLoop a} id := by
  cases hf : c.ids.find? (!c.sortable.contains ·) with
  | some id =>
    refine ⟨id, ?_, find?_notMem_sortable hc hf⟩
    unfold order
    dsimp only
    rw [hf]
  | none =>
    have hall : ∀ id ∈ c.ids, id ∈ c.sortable := by simpa using List.find?_eq_none.mp hf
    exact absurd (acyclic_of_order hc (order_eq_ok.mpr ⟨rfl, hall⟩)) ha

theorem order_eq_error_iff (hc : c.WellFormed) : (∃ e, c.order = .error e) ↔ ¬ c.Acyclic := by
  constructor
  · rintro ⟨e, h⟩ ha
    rw [exists_order hc ha] at h
    cases h
  · intro ha
    obtain ⟨id, h, -⟩ := order_of_looped hc ha
    exact ⟨⟨id⟩, h⟩

theorem evaluate_eq_error_iff (hc : c.WellFormed) (s : Assignment) :
    (∃ e, c.evaluate s = .error e) ↔ ¬ c.Acyclic := by
  constructor
  · rintro ⟨e, h⟩ ha
    obtain ⟨v, hv, -⟩ := evaluate_acyclic hc ha s
    rw [hv] at h
    cases h
  · intro ha
    obtain ⟨id, -, h⟩ := evaluate_looped hc ha
    exact ⟨⟨id⟩, h s⟩

/-! ## All ways of finding a loop -/

/-- What sorting a circuit comes to, and how it compares with the other ways of finding a loop. -/
structure SortsExactly (c : Circuit) : Prop where
  accepted : (∃ sorted, c.order = .ok sorted) ↔ c.Acyclic
  /-- Every gate is listed once. -/
  all : ∀ sorted, c.order = .ok sorted → sorted.Perm c.ids
  /-- A gate comes strictly behind each gate that fills one of its slots. -/
  before : ∀ sorted, c.order = .ok sorted →
    ∀ a b, c.DependsOn a b → sorted.idxOf b < sorted.idxOf a
  /-- The smallest gate on a loop or behind one is reported. -/
  refused : ¬ c.Acyclic → ∃ id, c.order = .error ⟨id⟩ ∧ IsLeast {a | c.BehindLoop a} id
  /-- Counting missing inputs wire by wire comes to the same: no number falls below zero, and when
  gates are left over, the reported one is found among them. -/
  counted : c.countedOrder? = some (c.order.mapError fun e => some e.gate)
  check : (∃ e, c.checkAcyclic = .error e) ↔ ∃ e, c.order = .error e
  evaluation : ∀ s, (∃ e, c.evaluate s = .error e) ↔ ∃ e, c.order = .error e
  depth : c.statistics.depth? = none ↔ ∃ e, c.order = .error e

theorem WellFormed.sortsExactly (hc : c.WellFormed) : c.SortsExactly where
  accepted := ⟨fun ⟨_, h⟩ => acyclic_of_order hc h, fun ha => ⟨_, exists_order hc ha⟩⟩
  all := by
    intro sorted h
    obtain ⟨rfl, hall⟩ := order_eq_ok.mp h
    obtain ⟨done, hd, hdone⟩ := (sorting_sortable hc).scheduled
    rw [List.perm_ext_iff_of_nodup (hdone ▸ hd.nodup_ids) hc.nodup_ids]
    refine fun id => ⟨fun hid => ?_, hall id⟩
    obtain ⟨g, hg, rfl⟩ := List.mem_map.mp (hdone ▸ hid)
    exact mem_ids_of_mem (hd.mem_gates g hg)
  before := by
    intro sorted h a b hab
    obtain ⟨rfl, hall⟩ := order_eq_ok.mp h
    obtain ⟨done, hd, hdone⟩ := (sorting_sortable hc).scheduled
    have ha := hall a (mem_ids_of_dependsOn hab)
    rw [← hdone] at ha ⊢
    exact hd.idxOf_lt hc ha hab
  refused := order_of_looped hc
  counted := countedOrder?_eq hc
  check := by
    unfold checkAcyclic
    cases c.order <;> simp [Except.map]
  evaluation s := (evaluate_eq_error_iff hc s).trans (order_eq_error_iff hc).symm
  depth := by
    show c.depth? = none ↔ _
    unfold depth?
    cases c.order <;> simp

/-- An inverter behind a ring of two others, the greater ones of the circuit. -/
def behindRing : Circuit :=
  [Edit.addGate .not {}, .addGate .not {}, .addGate .not {}, .connect 1 0 0, .connect 2 1 0,
    .connect 1 2 0].foldl Edit.apply empty

theorem behindRing_wellFormed : behindRing.WellFormed := by
  have hr : behindRing.Reachable := Reachable.empty.edits
    ⟨(by decide : 0 < idBound), (by decide : 1 < idBound), (by decide : 2 < idBound), trivial,
      trivial, trivial, trivial⟩
  exact hr.wellFormed

/-- Sorting is exact for every circuit, and there is a circuit in which sorting and evaluating
report different gates. -/
theorem order_exact :
    (∀ c : Circuit, c.WellFormed → c.SortsExactly) ∧
      ∃ c : Circuit, c.WellFormed ∧ ∃ a b, a ≠ b ∧ c.order = .error ⟨a⟩ ∧
        ∀ s, c.evaluate s = .error ⟨b⟩ := by
  refine ⟨fun _ hc => hc.sortsExactly, behindRing, behindRing_wellFormed, 0, 1, by decide,
    by decide, fun s => ?_⟩
  have hplan : behindRing.plan = .error ⟨1⟩ := by decide
  rw [evaluate, hplan]
  rfl

/-- One gate of which a letter fills both slots, before that letter. -/
def doubled : Circuit :=
  [Edit.addGate (.binary .xor) {}, .addGate (.var 'a') {}, .connect 1 0 1, .connect 1 0 0].foldl
    Edit.apply empty

theorem order_exact_doubled :
    doubled.WellFormed ∧ doubled.SortsExactly ∧ doubled.order = .ok [1, 0] := by
  have hr : doubled.Reachable := Reachable.empty.edits
    ⟨(by decide : 0 < idBound), (by decide : 1 < idBound), trivial, trivial, trivial⟩
  exact ⟨hr.wellFormed, order_exact.1 doubled hr.wellFormed, by decide⟩

end LogicCircuit.Circuit
