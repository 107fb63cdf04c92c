import LogicCircuit.Proofs.Circuit.Sorting

/-!
# Sorting by counting

The gates can also be sorted by keeping, for each gate, the number of its connected inputs that
have not been taken. Taking a gate lowers the number of the target of each wire that leaves it, and
a gate of which no input is missing any more waits on top of the stack. Here a number that would
fall below zero, and gates left over without a missing input, are failures of their own; neither
ever occurs.

Results:
* `foldlM_lower?`: what the wires that leave one gate do to the numbers and to the stack.
* `Counts.take`, `Counts.takeAll?`: the numbers are those of the inputs that have not been taken.
* `countedOrder?_eq`: counting sorts the gates as `order` does, and fails with the same gate.
-/

namespace LogicCircuit.Circuit

variable {c : Circuit}

/-! ## Counting down -/

/-- How far the counting has come: the gates that wait on the stack, those that were taken, and
for each gate how many of its inputs have not been taken. -/
structure Countdown where
  waiting : List GateId
  taken : List GateId
  missing : GateId → Nat

/-- One input of a gate has been taken. There is no result if none was missing. -/
def Countdown.lower? (s : Countdown) (id : GateId) : Option Countdown :=
  match s.missing id with
  | 0 => none
  | n + 1 =>
    some { s with
      missing := Function.update s.missing id n
      waiting := if n = 0 then id :: s.waiting else s.waiting }

/-- Take gates until none waits, at most `fuel` of them. There is no result if some gate waits
after that. -/
def takeAll? (c : Circuit) : Nat → Countdown → Option Countdown
  | 0, s => if s.waiting.isEmpty then some s else none
  | fuel + 1, s =>
    match s.waiting with
    | [] => some s
    | id :: waiting => do
      let s ← ((c.fanout id).map (·.target)).foldlM Countdown.lower?
        { s with waiting, taken := s.taken ++ [id] }
      takeAll? c fuel s

/-- At the start every connected input is missing. -/
def missingInputs (c : Circuit) (id : GateId) : Nat := ((c.gate? id).map (·.inputs.length)).getD 0

/-- The gates in an order of dependency, found by counting. Fails with the first gate that has a
missing input when not all gates were taken; with none if there is no such gate. -/
def countedOrder? (c : Circuit) : Option (Except (Option GateId) (List GateId)) := do
  let s ← c.takeAll? c.gates.length
    ⟨c.ids.filter fun id => c.missingInputs id = 0, [], c.missingInputs⟩
  return if s.taken.length = c.gates.length then .ok s.taken
    else .error (c.ids.find? fun id => s.missing id ≠ 0)

/-! ## The wires that leave a gate -/

theorem eraseDups_filter {α : Type} [DecidableEq α] (p : α → Bool) (l : List α) :
    (l.filter p).eraseDups = l.eraseDups.filter p := by
  induction hl : l.length using Nat.strong_induction_on generalizing l with
  | _ n ih =>
    cases l with
    | nil => rfl
    | cons a l =>
      have hlt : (l.filter fun b => !b == a).length < n := by
        rw [← hl, List.length_cons]
        exact Nat.lt_succ_of_le (List.length_filter_le _ _)
      have hrest := ih _ hlt _ rfl
      rw [List.eraseDups_cons, List.filter_cons, List.filter_cons]
      split_ifs with hp
      · rw [List.eraseDups_cons, List.filter_comm, hrest]
      · rw [← hrest, List.filter_filter]
        congr 1
        refine List.filter_congr fun b _ => ?_
        by_cases hb : b = a
        · simp [hb, hp]
        · simp [hb]

/-- Lowering the numbers of some gates, one after the other. The gates that are thereby left
without a missing input wait in the order of their last occurrence, latest first. -/
theorem foldlM_lower? {targets : List GateId} {s : Countdown}
    (h : ∀ t, targets.count t ≤ s.missing t) :
    targets.foldlM Countdown.lower? s =
      some { s with
        missing := fun t => s.missing t - targets.count t
        waiting := (targets.reverse.eraseDups.filter fun t => s.missing t == targets.count t) ++
          s.waiting } := by
  induction targets using List.reverseRecOn with
  | nil => simp
  | append_singleton targets a ih =>
    have hcount : ∀ t, (targets ++ [a]).count t = targets.count t + if a = t then 1 else 0 := by
      intro t
      rw [List.count_append, List.count_singleton]
      simp only [beq_iff_eq]
    have hlt : targets.count a < s.missing a := by
      have := h a
      rw [hcount, if_pos rfl] at this
      omega
    -- before its last occurrence the gate is not among those without a missing input
    have hsame : ((targets.reverse.filter fun b => !b == a).eraseDups.filter
        fun t => s.missing t == (targets ++ [a]).count t) =
        targets.reverse.eraseDups.filter fun t => s.missing t == targets.count t := by
      rw [eraseDups_filter, List.filter_filter]
      refine List.filter_congr fun t _ => ?_
      rw [hcount]
      by_cases ht : t = a
      · subst ht
        simp only [beq_self_eq_true, Bool.not_true, Bool.and_false]
        exact (beq_eq_false_iff_ne.mpr hlt.ne').symm
      · simp [ht, Ne.symm ht]
    rw [List.foldlM_append,
      ih fun t => (Nat.le_add_right _ _).trans ((hcount t).symm.trans_le (h t))]
    obtain ⟨n, hn⟩ : ∃ n, s.missing a - targets.count a = n + 1 :=
      ⟨s.missing a - targets.count a - 1, by omega⟩
    simp only [Option.bind_eq_bind, Option.bind_some, List.foldlM_cons, List.foldlM_nil,
      Countdown.lower?, hn]
    rw [List.reverse_append, List.reverse_singleton, List.singleton_append, List.eraseDups_cons,
      List.filter_cons, hsame, hcount, if_pos rfl]
    simp only [Option.pure_def, Option.some.injEq, Countdown.mk.injEq, true_and]
    constructor
    · by_cases h0 : n = 0
      · rw [if_pos h0, if_pos (beq_iff_eq.mpr (by omega))]
        rfl
      · rw [if_neg h0, if_neg (by rw [beq_iff_eq]; omega)]
    · funext t
      rw [hcount]
      by_cases ht : t = a
      · subst ht
        rw [Function.update_self, if_pos rfl]
        omega
      · rw [Function.update_of_ne ht, if_neg (Ne.symm ht)]
        rfl

/-- As many wires lead from one gate to another as slots of the other one are filled by it. -/
theorem count_targets (hc : c.WellFormed) {g : Gate} (hg : g ∈ c.gates) (id : GateId) :
    ((c.fanout id).map (·.target)).count g.id = g.inputs.count id := by
  have hperm : ((c.wires.map Wire.ends).filter fun e => e.1 == id && e.2.1 == g.id).Perm
      (g.connections.filter fun e => e.1 == id) := by
    rw [List.perm_ext_iff_of_nodup (hc.nodup_ends.filter _) (g.nodup_connections.filter _)]
    rintro ⟨source, target, slot⟩
    simp only [List.mem_filter, Bool.and_eq_true, beq_iff_eq, Gate.mem_connections, hc.wired]
    constructor
    · rintro ⟨⟨h, hh, hid, hd⟩, rfl, rfl⟩
      obtain rfl := hc.eq_of_id_eq hh hg hid
      exact ⟨⟨rfl, hd⟩, rfl⟩
    · rintro ⟨⟨rfl, hd⟩, rfl⟩
      exact ⟨⟨g, hg, rfl, hd⟩, rfl, rfl⟩
  have hwires : ((c.fanout id).map (·.target)).count g.id =
      ((c.wires.map Wire.ends).filter fun e => e.1 == id && e.2.1 == g.id).length := by
    rw [List.count, List.countP_map, fanout, List.countP_filter, List.countP_eq_length_filter,
      List.filter_map, List.length_map]
    congr 1
    refine List.filter_congr fun w _ => ?_
    exact Bool.and_comm _ _
  have hinputs : (g.connections.filter fun e => e.1 == id).length = g.inputs.count id := by
    rw [← g.map_fst_connections, List.count, List.countP_map, List.countP_eq_length_filter]
    rfl
  rw [hwires, hperm.length_eq, hinputs]

/-! ## What the numbers are -/

/-- The number of each gate is that of its inputs that have not been taken. -/
def Counts (c : Circuit) (taken : List GateId) (missing : GateId → Nat) : Prop :=
  ∀ g ∈ c.gates, missing g.id = g.inputs.countP (!taken.contains ·)

theorem countP_not_contains_append {taken : List GateId} {id : GateId} (h : id ∉ taken)
    (l : List GateId) :
    l.countP (!taken.contains ·) = l.countP (!(taken ++ [id]).contains ·) + l.count id := by
  induction l with
  | nil => rfl
  | cons d l ih =>
    rw [List.countP_cons, List.countP_cons, List.count_cons, ih]
    by_cases hd : d = id
    · subst hd
      simp [h]
      omega
    · simp [hd]
      omega

namespace Counts

variable {taken : List GateId} {missing : GateId → Nat}

/-- Of a gate no input is missing exactly if the gate is ready. -/
theorem eq_zero_iff (h : c.Counts taken missing) (hc : c.WellFormed) {g : Gate} (hg : g ∈ c.gates) :
    missing g.id = 0 ↔ c.isReady taken g.id = true := by
  rw [h g hg, List.countP_eq_zero, isReady_iff hc]
  simp only [Bool.not_eq_true', Bool.not_eq_false, List.contains_iff_mem]
  constructor
  · exact fun hall => ⟨g, hg, rfl, hall⟩
  · rintro ⟨g', hg', hid, hall⟩
    exact hc.eq_of_id_eq hg' hg hid ▸ hall

/-- Taking a gate: no number falls below zero, the gates that become ready wait on top, and the
numbers are again those of the inputs that have not been taken. -/
theorem take (h : c.Counts taken missing) (hc : c.WellFormed) {id : GateId} (hid : id ∉ taken)
    (stack : List GateId) :
    ∃ missing', ((c.fanout id).map (·.target)).foldlM Countdown.lower?
        ⟨stack, taken ++ [id], missing⟩ =
      some ⟨(c.targets id).filter (c.isReady (taken ++ [id])) ++ stack, taken ++ [id], missing'⟩ ∧
      c.Counts (taken ++ [id]) missing' := by
  have hgate : ∀ t ∈ (c.fanout id).map (·.target), ∃ g ∈ c.gates, g.id = t := by
    intro t ht
    obtain ⟨w, hw, rfl⟩ := List.mem_map.mp ht
    exact mem_ids.mp (hc.target_mem (List.mem_filter.mp hw).1)
  have hsplit : ∀ g ∈ c.gates,
      missing g.id = g.inputs.countP (!(taken ++ [id]).contains ·) +
        ((c.fanout id).map (·.target)).count g.id := by
    intro g hg
    rw [h g hg, count_targets hc hg, countP_not_contains_append hid]
  have hle : ∀ t, ((c.fanout id).map (·.target)).count t ≤ missing t := by
    intro t
    by_cases ht : t ∈ (c.fanout id).map (·.target)
    · obtain ⟨g, hg, rfl⟩ := hgate t ht
      rw [hsplit g hg]
      exact Nat.le_add_left _ _
    · rw [List.count_eq_zero.mpr ht]
      exact Nat.zero_le _
  have hcounts : c.Counts (taken ++ [id])
      fun t => missing t - ((c.fanout id).map (·.target)).count t := by
    intro g hg
    show missing g.id - _ = _
    rw [hsplit g hg, Nat.add_sub_cancel]
  refine ⟨_, ?_, hcounts⟩
  rw [foldlM_lower? hle, targets]
  simp only [Option.some.injEq, Countdown.mk.injEq, and_true]
  congr 1
  refine List.filter_congr fun t ht => ?_
  obtain ⟨g, hg, rfl⟩ := hgate t (by simpa using ht)
  rw [Bool.eq_iff_iff, beq_iff_eq, ← hcounts.eq_zero_iff hc hg]
  have := hle g.id
  omega

/-- Counting takes the gates that `takeReady` takes, and in the end none waits. -/
theorem takeAll? {stack : List GateId} (h : c.Counts taken missing) (hs : c.Sorting stack taken)
    (hc : c.WellFormed) {fuel : Nat} (hf : c.gates.length ≤ taken.length + fuel) :
    ∃ missing', c.takeAll? fuel ⟨stack, taken, missing⟩ =
        some ⟨[], c.takeReady fuel stack taken, missing'⟩ ∧
      c.Counts (c.takeReady fuel stack taken) missing' := by
  induction fuel generalizing stack taken missing with
  | zero =>
    cases stack with
    | nil => exact ⟨missing, rfl, h⟩
    | cons id stack =>
      have hle := (hs.take hc).length_le
      rw [List.length_append, List.length_singleton] at hle
      omega
  | succ fuel ih =>
    cases stack with
    | nil => exact ⟨missing, rfl, h⟩
    | cons id stack =>
      obtain ⟨missing₁, hfold, h₁⟩ := h.take hc (hs.fresh id List.mem_cons_self) stack
      obtain ⟨missing₂, hrun, h₂⟩ := ih h₁ (hs.take hc) (by simp; omega)
      refine ⟨missing₂, ?_, h₂⟩
      rw [Circuit.takeAll?]
      dsimp only
      rw [hfold]
      exact hrun

end Counts

/-! ## All gates -/

theorem counts_missingInputs (hc : c.WellFormed) : c.Counts [] c.missingInputs := by
  intro g hg
  unfold missingInputs
  rw [hc.gate?_eq_some.mpr ⟨hg, rfl⟩]
  simp

theorem filter_missingInputs (hc : c.WellFormed) :
    (c.ids.filter fun id => c.missingInputs id = 0) =
      (c.gates.filter (·.inputs.isEmpty)).map (·.id) := by
  unfold ids
  rw [List.filter_map]
  refine congrArg _ (List.filter_congr fun g hg => ?_)
  rw [Function.comp_apply, Bool.eq_iff_iff, decide_eq_true_eq, counts_missingInputs hc g hg]
  simp

/-- The gates that are sorted are all that are ready in the end. -/
theorem isReady_sortable (hc : c.WellFormed) (id : GateId) :
    c.isReady c.sortable id = true ↔ id ∈ c.sortable := by
  have hsorting := sorting_sortable hc
  constructor
  · intro hready
    simpa using hsorting.complete id hready
  · intro hmem
    obtain ⟨done, hd, hdone⟩ := hsorting.scheduled
    rw [← hdone] at hmem ⊢
    obtain ⟨g, hg, rfl⟩ := List.mem_map.mp hmem
    exact (isReady_iff hc).mpr ⟨g, hd.mem_gates g hg, rfl, hd.input_mem g hg⟩

/-- All gates are taken exactly if as many are taken as there are. -/
theorem length_sortable (hc : c.WellFormed) :
    c.sortable.length = c.gates.length ↔ ∀ id ∈ c.ids, id ∈ c.sortable := by
  obtain ⟨done, hd, hdone⟩ := (sorting_sortable hc).scheduled
  have hsub : c.sortable.Subperm c.ids := by
    rw [← hdone]
    refine List.subperm_of_subset hd.nodup_ids fun id hid => ?_
    obtain ⟨g, hg, rfl⟩ := List.mem_map.mp hid
    exact mem_ids_of_mem (hd.mem_gates g hg)
  have hlen : c.ids.length = c.gates.length := List.length_map _
  constructor
  · intro h id hid
    exact (hsub.perm_of_length_le (hlen.trans h.symm).le).mem_iff.mpr hid
  · intro h
    refine le_antisymm (hsub.length_le.trans hlen.le) ?_
    rw [← hlen]
    exact (List.subperm_of_subset hc.nodup_ids h).length_le

/-- Counting sorts the gates as `order` does: no number falls below zero, every gate that waits is
taken, and when gates are left over, one of them has a missing input. -/
theorem countedOrder?_eq (hc : c.WellFormed) :
    c.countedOrder? = some (c.order.mapError fun e => some e.gate) := by
  have hfuel : c.gates.length ≤ ([] : List GateId).length + c.gates.length := by simp
  obtain ⟨missing, hrun, hcounts⟩ :=
    (counts_missingInputs hc).takeAll? (sorting_sources hc) hc hfuel
  have hmissing : (c.ids.find? fun id => decide (missing id ≠ 0)) =
      c.ids.find? (!c.sortable.contains ·) := by
    refine List.find?_congr fun id hid => ?_
    obtain ⟨g, hg, rfl⟩ := mem_ids.mp hid
    rw [Bool.eq_iff_iff, decide_eq_true_eq, Bool.not_eq_true', Bool.eq_false_iff, Ne, Ne,
      List.contains_iff_mem, ← isReady_sortable hc]
    exact not_congr (hcounts.eq_zero_iff hc hg)
  unfold countedOrder?
  rw [filter_missingInputs hc, hrun]
  simp only [Option.bind_eq_bind, Option.bind_some, hmissing]
  change some (if c.sortable.length = c.gates.length then _ else _) = _
  unfold order
  dsimp only
  cases hf : c.ids.find? (!c.sortable.contains ·) with
  | none =>
    rw [if_pos ((length_sortable hc).mpr (by simpa using List.find?_eq_none.mp hf))]
    rfl
  | some id =>
    rw [if_neg]
    · rfl
    · intro h
      have hno := List.find?_some hf
      rw [Bool.not_eq_true', Bool.eq_false_iff, Ne, List.contains_iff_mem] at hno
      exact hno ((length_sortable hc).mp h id (List.mem_of_find?_eq_some hf))

end LogicCircuit.Circuit
