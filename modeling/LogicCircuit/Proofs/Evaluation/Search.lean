import LogicCircuit.Proofs.Evaluation.Traversal

/-!
# The traversal as a loop

The gates can also be visited in a loop, with a stack of the gates that have been entered and not
left. A pass of the loop enters the next gate, looks at one slot of the gate on top, or leaves that
gate. Nothing bounds the number of passes. The loop ends all the same, after four passes for each
gate at most, because a gate is entered at most once: each pass uses up a gate to begin at, a slot,
or a gate that has been entered.

Results:
* `Search.Runs.unique`: repeating the passes comes to one result.
* `Search.Runs.le_remaining`: how many passes there are at most.
* `search_runs_iff`: the loop ends, and with the result of `plan`.
-/

namespace LogicCircuit.Circuit

variable {c : Circuit}

/-! ## Passes -/

/-- How far a search has come: the gates that it is still to begin at, the gates that have been
entered and not left, the last one first and each with its slots that have not been looked at, and
the gates that have been left. -/
structure Search where
  roots : List Gate
  stack : List (Gate × List (Option GateId)) := []
  finished : List Gate := []

namespace Search

/-- One pass of the loop. There is none when all gates have been left. -/
def pass? (c : Circuit) (s : Search) : Option (Except LoopError Search) :=
  match s.stack with
  | [] =>
    match s.roots with
    | [] => none
    | g :: roots =>
      if s.finished.any (·.id == g.id) then some (.ok { s with roots })
      else some (.ok { s with roots, stack := [(g, g.slots)] })
  | (g, []) :: below => some (.ok { s with stack := below, finished := s.finished ++ [g] })
  | (g, none :: slots) :: below => some (.ok { s with stack := (g, slots) :: below })
  | (g, some d :: slots) :: below =>
    if s.finished.any (·.id == d) then some (.ok { s with stack := (g, slots) :: below })
    else if (s.stack.map (·.1.id)).contains d then some (.error ⟨d⟩)
    else
      match c.gate? d with
      | none => some (.ok { s with stack := (g, slots) :: below })
      | some h => some (.ok { s with stack := (h, h.slots) :: (g, slots) :: below })

/-- Repeating the passes until none is left takes the given number of passes, and this is what it
comes to. -/
inductive Runs (c : Circuit) : Search → Nat → Except LoopError (List Gate) → Prop
  | ended {s : Search} (h : s.pass? c = none) : Runs c s 0 (.ok s.finished)
  | failed {s : Search} {e : LoopError} (h : s.pass? c = some (.error e)) : Runs c s 1 (.error e)
  | pass {s t : Search} {n : Nat} {r : Except LoopError (List Gate)}
      (h : s.pass? c = some (.ok t)) (hr : Runs c t n r) : Runs c s (n + 1) r

variable {s t : Search} {n m : Nat} {r r' : Except LoopError (List Gate)}

/-- Repeating the passes comes to one result. -/
theorem Runs.unique (h : s.Runs c n r) (h' : s.Runs c m r') : n = m ∧ r = r' := by
  induction h generalizing m r' with
  | ended he =>
    cases h' with
    | ended _ => exact ⟨rfl, rfl⟩
    | failed hf => cases he.symm.trans hf
    | pass hp _ => cases he.symm.trans hp
  | failed hf =>
    cases h' with
    | ended he => cases he.symm.trans hf
    | failed hf' =>
      cases hf.symm.trans hf'
      exact ⟨rfl, rfl⟩
    | pass hp _ => cases hf.symm.trans hp
  | pass hp _ ih =>
    cases h' with
    | ended he => cases he.symm.trans hp
    | failed hf => cases hf.symm.trans hp
    | pass hp' hr' =>
      cases hp.symm.trans hp'
      obtain ⟨rfl, rfl⟩ := ih hr'
      exact ⟨rfl, rfl⟩

/-! ## Passes that remain -/

/-- The gates that have been entered. -/
def entered (s : Search) : List GateId := s.stack.map (·.1.id) ++ s.finished.map (·.id)

/-- The passes that a gate takes once it has been entered: one for each slot, and one to leave
it. -/
def cost (g : Gate) : Nat := g.slots.length + 1

/-- The passes that the gates take that have not been entered. -/
def unentered (c : Circuit) (s : Search) : Nat :=
  ((c.gates.filter (·.id ∉ s.entered)).map cost).sum

/-- The passes that it takes to look at the gates to begin at, and at the slots of the gates on the
stack, and to leave those. -/
def pending (s : Search) : Nat := s.roots.length + (s.stack.map (·.2.length + 1)).sum

/-- How many passes there can still be. -/
def remaining (c : Circuit) (s : Search) : Nat := s.pending + s.unentered c

theorem remaining_lt_of_same (h : ∀ id, id ∈ t.entered ↔ id ∈ s.entered)
    (hp : t.pending < s.pending) : t.remaining c < s.remaining c := by
  have hfilter : c.gates.filter (·.id ∉ t.entered) = c.gates.filter (·.id ∉ s.entered) :=
    List.filter_congr fun g _ => by simp [h]
  have hsame : t.unentered c = s.unentered c := by rw [unentered, unentered, hfilter]
  rw [remaining, remaining, hsame]
  exact Nat.add_lt_add_right hp _

/-- Entering a gate takes the passes for it from those of the gates that have not been entered. -/
theorem remaining_lt_of_enter {g : Gate} (hg : g ∈ c.gates) (hs : g.id ∉ s.entered)
    (h : ∀ id, id ∈ t.entered ↔ id = g.id ∨ id ∈ s.entered)
    (hp : t.pending < s.pending + cost g) : t.remaining c < s.remaining c := by
  have hfilter : c.gates.filter (·.id ∉ t.entered) =
      (c.gates.filter (·.id ∉ s.entered)).filter (·.id ≠ g.id) := by
    rw [List.filter_filter]
    exact List.filter_congr fun a _ => by simp [h]
  have hmem : g ∈ c.gates.filter (·.id ∉ s.entered) := List.mem_filter.mpr ⟨hg, by simpa using hs⟩
  have hless : t.unentered c + cost g ≤ s.unentered c := by
    rw [unentered, unentered, hfilter]
    generalize c.gates.filter (·.id ∉ s.entered) = l at hmem ⊢
    obtain ⟨before, behind, rfl⟩ := List.append_of_mem hmem
    have hdrop : ∀ l : List Gate, ((l.filter (·.id ≠ g.id)).map cost).sum ≤ (l.map cost).sum :=
      fun l => (List.filter_sublist.map cost).sum_le_sum fun _ _ => Nat.zero_le _
    have hbefore := hdrop before
    have hbehind := hdrop behind
    rw [List.filter_append, List.filter_cons_of_neg (by simp), List.map_append, List.map_append,
      List.sum_append, List.sum_append, List.map_cons, List.sum_cons]
    omega
  rw [remaining, remaining]
  omega

/-- Each pass uses up one of those that remain. -/
theorem remaining_lt (hroots : ∀ g ∈ s.roots, g ∈ c.gates) (h : s.pass? c = some (.ok t)) :
    t.remaining c < s.remaining c := by
  obtain ⟨roots, stack, finished⟩ := s
  rcases stack with - | ⟨⟨g, - | ⟨- | d, slots⟩⟩, below⟩
  · cases roots with
    | nil => cases h
    | cons g roots =>
      rw [pass?] at h
      dsimp only at h
      split_ifs at h with hfinished <;> cases h
      · exact remaining_lt_of_same (fun _ => Iff.rfl) (by simp [pending])
      · refine remaining_lt_of_enter (hroots g List.mem_cons_self) ?_ ?_ ?_
        · simpa [entered] using hfinished
        · simp [entered]
        · simp only [pending, cost, List.length_cons, List.map_cons, List.map_nil, List.sum_cons,
            List.sum_nil]
          omega
  · cases h
    refine remaining_lt_of_same (fun id => ?_) (by simp [pending])
    simp only [entered, List.map_append, List.map_cons, List.map_nil, List.mem_append,
      List.mem_cons, List.not_mem_nil, or_false]
    tauto
  · cases h
    exact remaining_lt_of_same (fun _ => Iff.rfl) (by simp [pending])
  · have hlook : remaining c ⟨roots, (g, slots) :: below, finished⟩ <
        remaining c ⟨roots, (g, some d :: slots) :: below, finished⟩ :=
      remaining_lt_of_same (fun _ => Iff.rfl) (by simp [pending])
    rw [pass?] at h
    dsimp only at h
    split_ifs at h with hfinished hstack
    · cases h
      exact hlook
    · cases h
    · cases hd : c.gate? d with
      | none =>
        rw [hd] at h
        cases h
        exact hlook
      | some e =>
        rw [hd] at h
        cases h
        obtain ⟨he, rfl⟩ := mem_of_gate? hd
        refine remaining_lt_of_enter he ?_ ?_ ?_
        · rw [entered, List.mem_append, not_or]
          exact ⟨by simpa using hstack, by simpa using hfinished⟩
        · simp [entered]
        · simp only [pending, cost, List.map_cons, List.sum_cons, List.length_cons]
          omega

theorem roots_pass (h : s.pass? c = some (.ok t)) : t.roots ⊆ s.roots := by
  obtain ⟨roots, stack, finished⟩ := s
  unfold pass? at h
  dsimp only at h
  repeat' split at h
  all_goals cases h
  all_goals simp

/-- There are no more passes than remain. -/
theorem Runs.le_remaining (h : s.Runs c n r) (hroots : ∀ g ∈ s.roots, g ∈ c.gates) :
    n ≤ s.remaining c := by
  induction h with
  | ended _ => exact Nat.zero_le _
  | @failed s e hf =>
    have hpending : 0 < s.pending := by
      obtain ⟨- | ⟨g, roots⟩, - | ⟨f, below⟩, finished⟩ := s
      · cases hf
      all_goals simp [pending]
    rw [remaining]
    omega
  | pass hp _ ih =>
    have hlt := remaining_lt hroots hp
    have hn := ih fun g hg => hroots g (roots_pass hp hg)
    omega

/-! ## What the passes come to -/

/-- From the first search on, the passes come to the error, or to the search that continues with
the gates left by then. -/
def LeadsTo (c : Circuit) (s : Search) (r : Except LoopError (List Gate))
    (next : List Gate → Search) : Prop :=
  match r with
  | .error e => ∃ n, s.Runs c n (.error e)
  | .ok done => ∀ n r, (next done).Runs c n r → ∃ m, s.Runs c m r

theorem LeadsTo.of_pass {next : List Gate → Search} {done : List Gate}
    (h : s.pass? c = some (.ok (next done))) : LeadsTo c s (.ok done) next :=
  fun n _ hr => ⟨n + 1, .pass h hr⟩

theorem LeadsTo.after {next : List Gate → Search} (ht : LeadsTo c t r next)
    (h : s.pass? c = some (.ok t)) : LeadsTo c s r next := by
  cases r with
  | error e =>
    obtain ⟨n, hn⟩ := ht
    exact ⟨n + 1, .pass h hn⟩
  | ok done =>
    intro n r hr
    obtain ⟨m, hm⟩ := ht n r hr
    exact ⟨m + 1, .pass h hm⟩

theorem LeadsTo.bind {next next' : List Gate → Search}
    {f : List Gate → Except LoopError (List Gate)} (h : LeadsTo c s r next)
    (hf : ∀ done, LeadsTo c (next done) (f done) next') : LeadsTo c s (r >>= f) next' := by
  cases r with
  | error e => exact h
  | ok done =>
    have hdone := hf done
    show LeadsTo c s (f done) next'
    cases hx : f done with
    | error e =>
      rw [hx] at hdone
      obtain ⟨n, hn⟩ := hdone
      exact h n _ hn
    | ok done' =>
      rw [hx] at hdone
      intro n r hr
      obtain ⟨m, hm⟩ := hdone n r hr
      exact h m r hm

/-- Looking at the slots of a gate and leaving it. -/
theorem leadsTo_slots {visit : List Gate → GateId → Except LoopError (List Gate)}
    {roots : List Gate} {g : Gate} {below : List (Gate × List (Option GateId))}
    (hvisit : ∀ d slots done, some d ∈ g.slots →
      LeadsTo c ⟨roots, (g, some d :: slots) :: below, done⟩ (visit done d)
        (⟨roots, (g, slots) :: below, ·⟩))
    {slots : List (Option GateId)} (hs : ∀ s ∈ slots, s ∈ g.slots) (done : List Gate) :
    LeadsTo c ⟨roots, (g, slots) :: below, done⟩
      ((slots.filterMap fun s => s).foldlM visit done >>= fun done => .ok (done ++ [g]))
      (⟨roots, below, ·⟩) := by
  induction slots generalizing done with
  | nil => exact .of_pass rfl
  | cons slot slots ih =>
    obtain ⟨hslot, hrest⟩ := List.forall_mem_cons.mp hs
    cases slot with
    | none => exact (ih hrest done).after rfl
    | some d =>
      simp only [List.filterMap_cons, List.foldlM_cons, bind_assoc]
      exact (hvisit d slots done hslot).bind fun done => ih hrest done

/-- Visiting a gate from a slot of the gate on top. -/
theorem leadsTo_visit {fuel : Nat} {roots : List Gate} {g : Gate} {slots : List (Option GateId)}
    {below : List (Gate × List (Option GateId))} {d : GateId} {path : List GateId}
    (hpath : path = g.id :: below.map (·.1.id)) (hn : path.Nodup) (hm : ∀ p ∈ path, p ∈ c.ids)
    (hf : c.gates.length < path.length + fuel) (done : List Gate) :
    LeadsTo c ⟨roots, (g, some d :: slots) :: below, done⟩ (c.visit fuel path done d)
      (⟨roots, (g, slots) :: below, ·⟩) := by
  induction fuel generalizing g slots below d path done with
  | zero =>
    have := path_length_le hn hm
    omega
  | succ fuel ih =>
    have hpass : pass? c ⟨roots, (g, some d :: slots) :: below, done⟩ =
        if done.any (·.id == d) then some (.ok ⟨roots, (g, slots) :: below, done⟩)
        else if path.contains d then some (.error ⟨d⟩)
        else
          match c.gate? d with
          | none => some (.ok ⟨roots, (g, slots) :: below, done⟩)
          | some h => some (.ok ⟨roots, (h, h.slots) :: (g, slots) :: below, done⟩) := by
      rw [hpath]
      rfl
    rw [visit]
    split_ifs at hpass ⊢ with hdone hloop
    · exact .of_pass hpass
    · exact ⟨1, .failed hpass⟩
    · cases hd : c.gate? d with
      | none =>
        rw [hd] at hpass
        exact .of_pass hpass
      | some e =>
        rw [hd] at hpass
        obtain ⟨he, rfl⟩ := mem_of_gate? hd
        have hn' : (e.id :: path).Nodup := List.nodup_cons.mpr ⟨by simpa using hloop, hn⟩
        have hm' : ∀ p ∈ e.id :: path, p ∈ c.ids :=
          List.forall_mem_cons.mpr ⟨mem_ids_of_mem he, hm⟩
        refine LeadsTo.after (leadsTo_slots (fun d slots' done _ => ?_) (fun _ h => h) done) hpass
        refine ih (by rw [hpath]; rfl) hn' hm' ?_ done
        rw [List.length_cons]
        omega

/-- Visiting a gate that the search begins at. -/
theorem leadsTo_root (hc : c.WellFormed) {g : Gate} (hg : g ∈ c.gates) (roots done : List Gate) :
    LeadsTo c ⟨g :: roots, [], done⟩ (c.visit (c.gates.length + 1) [] done g.id)
      (⟨roots, [], ·⟩) := by
  have hpass : pass? c ⟨g :: roots, [], done⟩ =
      if done.any (·.id == g.id) then some (.ok ⟨roots, [], done⟩)
      else some (.ok ⟨roots, [(g, g.slots)], done⟩) := rfl
  rw [visit, hc.gate?_eq_some.mpr ⟨hg, rfl⟩]
  simp only [List.contains_nil, Bool.false_eq_true, if_false]
  split_ifs at hpass ⊢
  · exact .of_pass hpass
  · refine LeadsTo.after (leadsTo_slots (fun d slots done _ => ?_) (fun _ h => h) done) hpass
    refine leadsTo_visit rfl (List.nodup_singleton _) ?_ ?_ done
    · simpa using mem_ids_of_mem hg
    · simp

/-- The loop comes to what the visits of the gates come to that it begins at. -/
theorem exists_runs (hc : c.WellFormed) {roots : List Gate} (hroots : ∀ g ∈ roots, g ∈ c.gates)
    (done : List Gate) : ∃ n, Runs c ⟨roots, [], done⟩ n
      ((roots.map (·.id)).foldlM (fun done id => c.visit (c.gates.length + 1) [] done id)
        done) := by
  induction roots generalizing done with
  | nil => exact ⟨0, .ended rfl⟩
  | cons g roots ih =>
    obtain ⟨hg, hrest⟩ := List.forall_mem_cons.mp hroots
    have hroot := leadsTo_root hc hg roots done
    rw [List.map_cons, List.foldlM_cons]
    cases hvisit : c.visit (c.gates.length + 1) [] done g.id with
    | error e =>
      rw [hvisit] at hroot
      exact hroot
    | ok done' =>
      rw [hvisit] at hroot
      obtain ⟨n, hn⟩ := ih hrest done'
      exact hroot n _ hn

end Search

/-! ## All gates -/

/-- The search that is to begin at every gate. -/
def search (c : Circuit) : Search := { roots := c.gates }

theorem remaining_search_le (hc : c.WellFormed) : c.search.remaining c ≤ 4 * c.gates.length := by
  have harity : ∀ g ∈ c.gates, Search.cost g ≤ 3 := by
    intro g hg
    rw [Search.cost, hc.arity g hg]
    cases g.kind <;> simp [GateKind.arity]
  have hcost : c.search.unentered c ≤ 3 * c.gates.length := by
    have hall : c.gates.filter (·.id ∉ c.search.entered) = c.gates := by
      simp [search, Search.entered]
    have hsum := List.sum_le_card_nsmul (c.gates.map Search.cost) 3 (by simpa using harity)
    rw [Search.unentered, hall]
    simpa [mul_comm] using hsum
  have hpending : c.search.pending = c.gates.length := by simp [search, Search.pending]
  rw [Search.remaining, hpending]
  omega

/-- The loop ends, after four passes for each gate at most, and with the result of `plan`. -/
theorem search_runs_iff (hc : c.WellFormed) : ∃ n ≤ 4 * c.gates.length,
    ∀ m r, c.search.Runs c m r ↔ m = n ∧ r = c.plan := by
  obtain ⟨n, hn⟩ := Search.exists_runs hc (fun _ hg => hg) []
  refine ⟨n, (hn.le_remaining fun _ hg => hg).trans (remaining_search_le hc), fun m r => ?_⟩
  constructor
  · intro h
    exact h.unique hn
  · rintro ⟨rfl, rfl⟩
    exact hn

end LogicCircuit.Circuit
