import LogicCircuit.Circuit.Statistics
import LogicCircuit.Proofs.Circuit.Sorting

/-!
# The longest path

The level of a gate is the number of wires on the longest path that goes on from it to the gates it
depends on. One pass over sorted gates finds all levels, as the gates that a gate depends on have
got theirs before it.

Results:
* `LongestFrom.of_inputs`: the level of a gate, given the levels of those it depends on.
* `Scheduled.longestFrom`: what the pass over scheduled gates finds.
* `exists_depth`: the depth of an acyclic circuit is the number of wires on its longest path.
-/

namespace LogicCircuit.Circuit

variable {c : Circuit}

/-! ## The greatest of some numbers -/

theorem foldl_max_le_iff {α : Type} {f : α → Nat} {l : List α} {m n : Nat} :
    l.foldl (fun k a => max k (f a)) m ≤ n ↔ m ≤ n ∧ ∀ a ∈ l, f a ≤ n := by
  induction l generalizing m with
  | nil => simp
  | cons a l ih => simp [ih, and_assoc]

theorem isGreatest_foldl_max {α : Type} (f : α → Nat) (l : List α) :
    IsGreatest {k | k = 0 ∨ ∃ a ∈ l, f a = k} (l.foldl (fun k a => max k (f a)) 0) := by
  have hle := (foldl_max_le_iff (f := f) (l := l) (m := 0)).mp le_rfl
  constructor
  · by_cases hzero : l.foldl (fun k a => max k (f a)) 0 = 0
    · exact Or.inl hzero
    · -- if all of them were smaller, so would be the greatest
      right
      by_contra hno
      have hlt : l.foldl (fun k a => max k (f a)) 0 ≤ l.foldl (fun k a => max k (f a)) 0 - 1 := by
        refine foldl_max_le_iff.mpr ⟨Nat.zero_le _, fun a ha => ?_⟩
        have hlt : f a < l.foldl (fun k a => max k (f a)) 0 :=
          lt_of_le_of_ne (hle.2 a ha) fun he => hno ⟨a, ha, he⟩
        omega
      omega
  · rintro k (rfl | ⟨a, ha, rfl⟩)
    · exact Nat.zero_le _
    · exact hle.2 a ha

/-! ## Paths -/

/-- The gates of the list belong to the circuit, and each has a slot that the next one fills. -/
structure IsPath (c : Circuit) (path : List GateId) : Prop where
  chain : path.IsChain c.DependsOn
  mem : ∀ id ∈ path, id ∈ c.ids

/-- The longest path that begins at the gate has the given number of wires. -/
def LongestFrom (c : Circuit) (id : GateId) (n : Nat) : Prop :=
  IsGreatest {k | ∃ path, c.IsPath (id :: path) ∧ path.length = k} n

theorem IsPath.singleton {id : GateId} (h : id ∈ c.ids) : c.IsPath [id] :=
  ⟨.singleton id, by simpa using h⟩

theorem isPath_cons_cons {a b : GateId} {path : List GateId} :
    c.IsPath (a :: b :: path) ↔ c.DependsOn a b ∧ c.IsPath (b :: path) := by
  constructor
  · rintro ⟨hchain, hmem⟩
    obtain ⟨hab, hrest⟩ := List.isChain_cons_cons.mp hchain
    exact ⟨hab, hrest, fun id hid => hmem id (List.mem_cons_of_mem a hid)⟩
  · rintro ⟨hab, hchain, hmem⟩
    refine ⟨List.isChain_cons_cons.mpr ⟨hab, hchain⟩, fun id hid => ?_⟩
    rcases List.mem_cons.mp hid with rfl | hid
    · obtain ⟨g, hg, rfl, -⟩ := hab
      exact mem_ids_of_mem hg
    · exact hmem id hid

/-- A path that goes on from a gate goes on from one of those it depends on. -/
theorem LongestFrom.of_inputs (hc : c.WellFormed) {g : Gate} (hg : g ∈ c.gates)
    {level : GateId → Nat} (h : ∀ d ∈ g.inputs, c.LongestFrom d (level d)) :
    c.LongestFrom g.id (g.inputs.foldl (fun n d => max n (level d + 1)) 0) := by
  obtain ⟨hmem, hle⟩ := isGreatest_foldl_max (fun d => level d + 1) g.inputs
  constructor
  · rcases hmem with hzero | ⟨d, hd, hlevel⟩
    · exact ⟨[], .singleton (mem_ids_of_mem hg), hzero.symm⟩
    · obtain ⟨path, hpath, hlength⟩ := (h d hd).1
      refine ⟨d :: path, isPath_cons_cons.mpr ⟨⟨g, hg, rfl, hd⟩, hpath⟩, ?_⟩
      rw [List.length_cons, hlength]
      exact hlevel
  · rintro _ ⟨path, hpath, rfl⟩
    cases path with
    | nil => exact Nat.zero_le _
    | cons d path =>
      obtain ⟨⟨g', hg', hid, hd⟩, hrest⟩ := isPath_cons_cons.mp hpath
      obtain rfl := hc.eq_of_id_eq hg' hg hid
      have hlength : path.length ≤ level d := (h d hd).2 ⟨path, hrest, rfl⟩
      exact (Nat.succ_le_succ hlength).trans (hle (Or.inr ⟨d, hd, rfl⟩))

/-! ## The pass over sorted gates -/

theorem levels_snoc (c : Circuit) (order : List GateId) (id : GateId) :
    c.levels (order ++ [id]) =
      (id, levelOver (c.levels order) (((c.gate? id).map (·.inputs)).getD [])) ::
        c.levels order := by
  simp [levels, List.foldl_append]

theorem map_fst_levels (c : Circuit) (order : List GateId) :
    (c.levels order).map (·.1) = order.reverse := by
  induction order using List.reverseRecOn with
  | nil => rfl
  | append_singleton order id ih => simp [levels_snoc, ih]

/-- Every gate of the pass is found among the levels. -/
theorem exists_level {order : List GateId} {id : GateId} (h : id ∈ order) :
    ∃ n, (c.levels order).lookup id = some n ∧ (id, n) ∈ c.levels order := by
  have hsome : ((c.levels order).lookup id).isSome = true := by
    rw [List.lookup_isSome_iff]
    have hkey : id ∈ (c.levels order).map (·.1) := by
      rw [map_fst_levels]
      exact List.mem_reverse.mpr h
    simpa using hkey
  obtain ⟨n, hn⟩ := Option.isSome_iff_exists.mp hsome
  obtain ⟨before, behind, hlevels, -⟩ := List.lookup_eq_some_iff.mp hn
  exact ⟨n, hn, by simp [hlevels]⟩

/-- The pass gives each scheduled gate its level. -/
theorem Scheduled.longestFrom {done : List Gate} (h : c.Scheduled done) (hc : c.WellFormed) :
    ∀ e ∈ c.levels (done.map (·.id)), c.LongestFrom e.1 e.2 := by
  induction h with
  | nil => simp [levels]
  | @snoc done g _ hg _ hin ih =>
    have hlast : c.LongestFrom g.id (levelOver (c.levels (done.map (·.id))) g.inputs) := by
      refine LongestFrom.of_inputs hc hg fun d hd => ?_
      obtain ⟨n, hn, hmem⟩ := exists_level (c := c) (hin d hd)
      rw [hn]
      exact ih _ hmem
    rw [List.map_append, List.map_singleton, levels_snoc, hc.gate?_eq_some.mpr ⟨hg, rfl⟩]
    intro e he
    rcases List.mem_cons.mp he with rfl | he
    · exact hlast
    · exact ih e he

/-- The depth of an acyclic circuit is the number of wires on its longest path. The empty path, the
only one of a circuit without gates, counts as one without wires. -/
theorem exists_depth (hc : c.WellFormed) (ha : c.Acyclic) :
    ∃ d, c.depth? = some d ∧ IsGreatest {k | ∃ path, c.IsPath path ∧ path.length - 1 = k} d := by
  obtain ⟨done, hd, hdone⟩ := (sorting_sortable hc).scheduled
  have hlongest := hd.longestFrom hc
  rw [hdone] at hlongest
  have horder := exists_order hc ha
  obtain ⟨hmem, hle⟩ := isGreatest_foldl_max (·.2) (c.levels c.sortable)
  refine ⟨_, by rw [depth?, horder], ?_, ?_⟩
  · rcases hmem with hzero | ⟨e, he, hlevel⟩
    · exact ⟨[], ⟨.nil, by simp⟩, hzero.symm⟩
    · obtain ⟨path, hpath, hlength⟩ := (hlongest e he).1
      exact ⟨e.1 :: path, hpath, hlength.trans hlevel⟩
  · rintro _ ⟨path, hpath, rfl⟩
    cases path with
    | nil => exact Nat.zero_le _
    | cons id path =>
      have hid := (order_eq_ok.mp horder).2 id (hpath.mem id List.mem_cons_self)
      obtain ⟨n, -, hentry⟩ := exists_level (c := c) hid
      have hlength : path.length ≤ n := (hlongest _ hentry).2 ⟨path, hpath, rfl⟩
      exact hlength.trans (hle (Or.inr ⟨_, hentry, rfl⟩))

end LogicCircuit.Circuit
