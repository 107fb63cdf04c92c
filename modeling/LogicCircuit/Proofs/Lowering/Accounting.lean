import LogicCircuit.Proofs.Lowering.Height

/-!
# Statistics account for the whole circuit

Every gate is counted under one kind and every slot is either open or filled by one wire, so that
the counts of a circuit add up. Its depth is measured in one pass over sorted gates, which looks up
the level of each input. `levels?` is that pass without a substitute for what is missing; as nothing
ever is missing, the two agree.

Results:
* `sum_countP_kind`, `sum_arity`: each gate is counted once, and each input of it.
* `exists_isWirePath_iff`: paths from wire to wire are paths from gate to gate.
* `Scheduled.levels?`: the pass finds the level of every input.
* `statistics_exact`: what the statistics of a circuit are, and those of the circuit of a text.
-/

namespace LogicCircuit

/-! ## Counting gates and slots -/

theorem ncard_mem {α : Type} {l : List α} (h : l.Nodup) : {a | a ∈ l}.ncard = l.length := by
  classical
  rw [← List.toFinset_card_of_nodup h, ← Set.ncard_coe_finset, List.coe_toFinset]

/-- Every slot of a gate is filled or open. -/
theorem Gate.length_inputs_add (g : Gate) :
    g.inputs.length + g.slots.countP (·.isNone) = g.slots.length := by
  unfold Gate.inputs
  induction g.slots with
  | nil => rfl
  | cons s l ih => cases s <;> simp <;> omega

namespace Circuit

variable {c : Circuit}

/-- The gates of some kinds. -/
def idsOfKind (c : Circuit) (kinds : Set GateKind) : Set GateId :=
  {id | ∃ g ∈ c.gates, g.kind ∈ kinds ∧ g.id = id}

theorem WellFormed.countKind_eq_ncard (hc : c.WellFormed) (p : GateKind → Bool)
    {kinds : Set GateKind} (hp : ∀ k, p k = true ↔ k ∈ kinds) :
    c.countKind p = (c.idsOfKind kinds).ncard := by
  have hnodup : ((c.gates.filter (p ·.kind)).map (·.id)).Nodup :=
    (List.filter_sublist.map _).nodup hc.nodup_ids
  have hset : c.idsOfKind kinds = {id | id ∈ (c.gates.filter (p ·.kind)).map (·.id)} := by
    ext id
    simp [idsOfKind, hp, and_assoc]
  rw [hset, ncard_mem hnodup, List.length_map, ← List.countP_eq_length_filter, countKind]

/-- Every gate is counted under one kind. -/
theorem sum_countP_kind (l : List Gate) :
    (Operator.all.map fun op => l.countP (·.kind == .binary op)).sum + l.countP (·.kind == .not) +
      l.countP (·.kind.letter?.isSome) +
      l.countP (fun g => g.kind == .const false || g.kind == .const true) = l.length := by
  induction l with
  | nil => rfl
  | cons g l ih =>
    simp only [Operator.all, List.map_cons, List.map_nil, List.sum_cons, List.sum_nil] at ih ⊢
    simp only [List.countP_cons, List.length_cons, ← ih]
    rcases g.kind with (_ | _) | letter | _ | (_ | _ | _ | _ | _ | _) <;>
      simp [GateKind.letter?] <;> omega

/-- An inverter has one input, the gate of an operator two, and no other gate has any. -/
theorem sum_arity (l : List Gate) :
    (l.map (·.kind.arity)).sum = l.countP (·.kind == .not) +
      2 * (Operator.all.map fun op => l.countP (·.kind == .binary op)).sum := by
  induction l with
  | nil => rfl
  | cons g l ih =>
    simp only [Operator.all, List.map_cons, List.map_nil, List.sum_cons, List.sum_nil] at ih ⊢
    simp only [List.countP_cons, ih]
    rcases g.kind with (_ | _) | letter | _ | (_ | _ | _ | _ | _ | _) <;>
      simp [GateKind.arity] <;> omega

/-- Every slot is filled or open. -/
theorem length_inputs_add_countP_slots (l : List Gate) :
    (l.flatMap (·.inputs)).length + (l.flatMap (·.slots)).countP (·.isNone) =
      (l.map (·.slots.length)).sum := by
  induction l with
  | nil => rfl
  | cons g l ih =>
    simp only [List.flatMap_cons, List.length_append, List.countP_append, List.map_cons,
      List.sum_cons, ← g.length_inputs_add, ← ih]
    omega

/-! ## Paths of wires -/

/-- The wires belong to the circuit, and each leaves the gate that the next one enters. -/
structure IsWirePath (c : Circuit) (path : List Wire) : Prop where
  mem : ∀ w ∈ path, w ∈ c.wires
  chain : path.IsChain fun v w => v.source = w.target

theorem isWirePath_cons {w : Wire} {path : List Wire} :
    c.IsWirePath (w :: path) ↔
      w ∈ c.wires ∧ c.IsWirePath path ∧ ∀ v ∈ path.head?, w.source = v.target := by
  constructor
  · rintro ⟨hmem, hchain⟩
    obtain ⟨hhead, hrest⟩ := List.isChain_cons.mp hchain
    exact ⟨hmem w List.mem_cons_self, ⟨fun v hv => hmem v (List.mem_cons_of_mem w hv), hrest⟩,
      hhead⟩
  · rintro ⟨hw, ⟨hmem, hchain⟩, hhead⟩
    exact ⟨List.forall_mem_cons.mpr ⟨hw, hmem⟩, List.isChain_cons.mpr ⟨hhead, hchain⟩⟩

/-- The gates along a path of wires. -/
theorem IsWirePath.isPath (hc : c.WellFormed) {w : Wire} {path : List Wire}
    (h : c.IsWirePath (w :: path)) : c.IsPath (w.target :: (w :: path).map (·.source)) := by
  induction path generalizing w with
  | nil =>
    obtain ⟨hw, -⟩ := isWirePath_cons.mp h
    exact isPath_cons_cons.mpr
      ⟨hc.dependsOn_iff_wire.mpr ⟨w, hw, rfl, rfl⟩, .singleton (hc.sourced w hw)⟩
  | cons v path ih =>
    obtain ⟨hw, hrest, hhead⟩ := isWirePath_cons.mp h
    have hpath := ih hrest
    rw [← hhead v rfl] at hpath
    exact isPath_cons_cons.mpr ⟨hc.dependsOn_iff_wire.mpr ⟨w, hw, rfl, rfl⟩, hpath⟩

/-- The wires along a path of gates. -/
theorem IsPath.exists_isWirePath (hc : c.WellFormed) {id : GateId} {path : List GateId}
    (h : c.IsPath (id :: path)) :
    ∃ ws, c.IsWirePath ws ∧ ws.length = path.length ∧ ∀ w ∈ ws.head?, id = w.target := by
  induction path generalizing id with
  | nil => exact ⟨[], ⟨by simp, .nil⟩, rfl, by simp⟩
  | cons d path ih =>
    obtain ⟨hd, hrest⟩ := isPath_cons_cons.mp h
    obtain ⟨w, hw, rfl, rfl⟩ := hc.dependsOn_iff_wire.mp hd
    obtain ⟨ws, hws, hlength, hhead⟩ := ih hrest
    refine ⟨w :: ws, isWirePath_cons.mpr ⟨hw, hws, hhead⟩, by simp [hlength], ?_⟩
    rintro v ⟨⟩
    rfl

theorem exists_isWirePath_iff (hc : c.WellFormed) {n : Nat} :
    (∃ ws, c.IsWirePath ws ∧ ws.length = n) ↔ ∃ path, c.IsPath path ∧ path.length - 1 = n := by
  constructor
  · rintro ⟨ws, hws, rfl⟩
    cases ws with
    | nil => exact ⟨[], ⟨.nil, by simp⟩, rfl⟩
    | cons w ws => exact ⟨_, hws.isPath hc, by simp⟩
  · rintro ⟨path, hpath, rfl⟩
    cases path with
    | nil => exact ⟨[], ⟨by simp, .nil⟩, rfl⟩
    | cons id path =>
      obtain ⟨ws, hws, hlength, -⟩ := hpath.exists_isWirePath hc
      exact ⟨ws, hws, hlength⟩

/-! ## The pass without substitutes -/

/-- The level of a gate, given the levels of the gates it depends on. There is none if one of
these has not got its level. -/
def levelOver? (levels : List (GateId × Nat)) (inputs : List GateId) : Option Nat :=
  inputs.foldlM (fun level id => (levels.lookup id).map fun l => max level (l + 1)) 0

/-- The levels of the gates of a dependency order, latest gate first. There are none if a gate of
the order does not exist, or comes before one that it depends on. -/
def levels? (c : Circuit) (order : List GateId) : Option (List (GateId × Nat)) :=
  order.foldlM (fun levels id => do
    let g ← c.gate? id
    let level ← levelOver? levels g.inputs
    return (id, level) :: levels) []

theorem foldlM_lookup {levels : List (GateId × Nat)} {inputs : List GateId}
    (h : ∀ d ∈ inputs, ∃ n, levels.lookup d = some n) (level : Nat) :
    inputs.foldlM (fun level id => (levels.lookup id).map fun l => max level (l + 1)) level =
      some (inputs.foldl (fun level id => max level ((levels.lookup id).getD 0 + 1)) level) := by
  induction inputs generalizing level with
  | nil => rfl
  | cons d inputs ih =>
    obtain ⟨n, hn⟩ := h d List.mem_cons_self
    rw [List.foldlM_cons, List.foldl_cons, hn]
    exact ih (fun d hd => h d (List.mem_cons_of_mem _ hd)) (max level (n + 1))

/-- Every lookup of the pass over scheduled gates finds a level. -/
theorem Scheduled.levels? {done : List Gate} (h : c.Scheduled done) (hc : c.WellFormed) :
    c.levels? (done.map (·.id)) = some (c.levels (done.map (·.id))) := by
  induction h with
  | nil => rfl
  | @snoc done g _ hg _ hin ih =>
    have hfound : ∀ d ∈ g.inputs, ∃ n, (c.levels (done.map (·.id))).lookup d = some n := by
      intro d hd
      obtain ⟨n, hn, -⟩ := exists_level (c := c) (hin d hd)
      exact ⟨n, hn⟩
    have hgate : c.gate? g.id = some g := hc.gate?_eq_some.mpr ⟨hg, rfl⟩
    rw [List.map_append, List.map_singleton, levels_snoc, hgate]
    unfold Circuit.levels? at ih ⊢
    rw [List.foldlM_append, ih]
    simp [hgate, levelOver?, levelOver, foldlM_lookup hfound]

/-! ## All numbers -/

/-- The statistics of a circuit account for all of it. -/
structure AccountedFor (c : Circuit) : Prop where
  /-- Each number of gates is that of the gates of its kind, and together these are all gates. -/
  binary : ∀ op, c.statistics.binary op = (c.idsOfKind {.binary op}).ncard
  inverters : c.statistics.inverters = (c.idsOfKind {.not}).ncard
  letterGates : c.statistics.letterGates = (c.idsOfKind (Set.range .var)).ncard
  constants : c.statistics.constants = (c.idsOfKind (Set.range .const)).ncard
  kinds : (Operator.all.map c.statistics.binary).sum + c.statistics.inverters +
    c.statistics.letterGates + c.statistics.constants = c.gates.length
  gates : c.statistics.gates = c.gates.length
  /-- The wires and the open slots are as many as the inputs of all gates. -/
  slots : c.statistics.wires + c.statistics.openSlots =
    c.statistics.inverters + 2 * (Operator.all.map c.statistics.binary).sum
  wires : c.statistics.wires = c.wires.length
  letters : c.statistics.letters = {l | ∃ g ∈ c.gates, g.kind = .var l}.ncard
  sinks : c.statistics.sinks = {id | id ∈ c.ids ∧ ∀ w ∈ c.wires, w.source ≠ id}.ncard
  looped : c.statistics.depth? = none ↔ ∃ id, c.OnLoop id
  /-- The depth is the number of wires on the longest path. -/
  longest : ∀ d, c.statistics.depth? = some d →
    IsGreatest {n | ∃ path, c.IsWirePath path ∧ path.length = n} d
  unwired : c.wires = [] → c.statistics.depth? = some 0
  /-- The pass that measures the depth finds every gate, and the level of every input. -/
  lookups : ∀ order, c.order = .ok order → c.levels? order = some (c.levels order)

theorem gates_statistics (c : Circuit) : c.statistics.gates =
    (Operator.all.map c.statistics.binary).sum + c.statistics.inverters +
      c.statistics.letterGates + c.statistics.constants := by
  simp only [Statistics.gates, Statistics.logicGates, Operator.all, List.foldr_cons,
    List.foldr_nil, List.map_cons, List.map_nil, List.sum_cons, List.sum_nil]
  omega

theorem WellFormed.depth?_eq_none_iff (hc : c.WellFormed) :
    c.statistics.depth? = none ↔ ∃ id, c.OnLoop id := by
  constructor
  · intro hnone
    by_contra hno
    obtain ⟨d, hd, -⟩ := exists_depth hc (not_exists.mp hno)
    exact absurd (hd.symm.trans hnone) (by simp)
  · rintro ⟨id, hloop⟩
    show c.depth? = none
    unfold depth?
    cases ho : c.order with
    | error e => rfl
    | ok order => exact absurd hloop (acyclic_of_order hc ho id)

theorem WellFormed.isGreatest_wirePath (hc : c.WellFormed) {d : Nat}
    (h : c.statistics.depth? = some d) :
    IsGreatest {n | ∃ path, c.IsWirePath path ∧ path.length = n} d := by
  have ha : c.Acyclic := by
    intro id hloop
    rw [hc.depth?_eq_none_iff.mpr ⟨id, hloop⟩] at h
    cases h
  obtain ⟨d', hd', hgreatest⟩ := exists_depth hc ha
  obtain rfl : d' = d := Option.some.inj (hd'.symm.trans h)
  simpa only [exists_isWirePath_iff hc] using hgreatest

theorem WellFormed.accountedFor (hc : c.WellFormed) : c.AccountedFor where
  binary op := hc.countKind_eq_ncard (· == .binary op) (by simp)
  inverters := hc.countKind_eq_ncard (· == .not) (by simp)
  letterGates := hc.countKind_eq_ncard (·.letter?.isSome) fun k => by
    cases k <;> simp [GateKind.letter?]
  constants := hc.countKind_eq_ncard (fun k => k == .const false || k == .const true) fun k => by
    cases k <;> simp
  kinds := sum_countP_kind c.gates
  gates := (gates_statistics c).trans (sum_countP_kind c.gates)
  slots := by
    have hslots := length_inputs_add_countP_slots c.gates
    rw [← hc.length_wires, List.map_congr_left hc.arity, sum_arity] at hslots
    exact hslots
  wires := rfl
  letters := by
    simp only [← mem_letters, ncard_mem (nodup_letters c)]
    rfl
  sinks := by
    simp only [← mem_sinks, ncard_mem (hc.ascending_sinks.imp fun h => h.ne)]
    rfl
  looped := hc.depth?_eq_none_iff
  longest _ := hc.isGreatest_wirePath
  unwired := by
    intro hwires
    cases hd : c.statistics.depth? with
    | none =>
      obtain ⟨id, hloop⟩ := hc.depth?_eq_none_iff.mp hd
      obtain ⟨b, hb, -⟩ := Relation.TransGen.head'_iff.mp hloop
      obtain ⟨w, hw, -⟩ := hc.dependsOn_iff_wire.mp hb
      simp [hwires] at hw
    | some d =>
      obtain ⟨⟨path, hpath, rfl⟩, -⟩ := hc.isGreatest_wirePath hd
      cases path with
      | nil => rfl
      | cons w path => simpa [hwires] using hpath.mem w List.mem_cons_self
  lookups := by
    intro order ho
    obtain ⟨rfl, -⟩ := order_eq_ok.mp ho
    obtain ⟨done, hd, hdone⟩ := (sorting_sortable hc).scheduled
    rw [← hdone]
    exact hd.levels? hc

/-- The statistics of every circuit account for all of it. The circuit of a text has a gate for each
node of the formula and, with no more gates than there are identifiers, is as deep as the formula is
high. -/
theorem statistics_exact :
    (∀ c : Circuit, c.WellFormed → c.AccountedFor) ∧
      ∀ (text : String) (limits : Limits) (f : Formula), Formula.parse text limits = .ok f →
        ∃ c, compile text limits = .ok c ∧ c.gates.length = f.size ∧
          c.statistics.gates = f.size ∧
          (f.size ≤ idBound → c.WellFormed ∧ c.statistics.depth? = some (f.height - 1)) := by
  refine ⟨fun _ hc => hc.accountedFor, fun text limits f hparse => ?_⟩
  have hcompile : compile text limits = .ok (ofFormula f) := by
    rw [compile, hparse]
    rfl
  have hlength : (ofFormula f).gates.length = f.size :=
    (length_addFormulaAt empty f _ _).trans (Nat.zero_add _)
  have hgates : (ofFormula f).statistics.gates = (ofFormula f).gates.length :=
    (gates_statistics _).trans (sum_countP_kind _)
  exact ⟨ofFormula f, hcompile, hlength, hgates.trans hlength,
    fun hsize => ⟨wellFormed_ofFormula hsize, depth?_ofFormula hsize⟩⟩

/-- A letter that occurs twice is counted once, and its gates are counted separately. -/
theorem statistics_exact_repeated :
    ∃ c, compile "a+!A" {} = .ok c ∧ c.AccountedFor ∧ c.statistics.gates = 4 ∧
      c.statistics.depth? = some 2 := by
  have hf : Formula.parse "a+!A" {} = .ok (.binary .or (.var 'A') (.not (.var 'A'))) :=
    eq_ok_of_toOption (by decide +kernel)
  obtain ⟨c, hc, -, hgates, hdepth⟩ := statistics_exact.2 _ _ _ hf
  obtain ⟨hwf, hd⟩ := hdepth (by decide)
  exact ⟨c, hc, statistics_exact.1 c hwf, hgates, hd⟩

end Circuit

end LogicCircuit
