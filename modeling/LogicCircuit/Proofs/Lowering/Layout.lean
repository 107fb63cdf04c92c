import LogicCircuit.Circuit.OfFormula
import LogicCircuit.Proofs.Circuit.Edits

/-!
# What the gates of a formula look like

The gates of a formula are added one by one, and a gate is rewired after the gates of its operands
have been added behind it. Seen from the end, they are laid out in the order in which the nodes of
the formula are read: each node before its operands, the left operand before the right one.

Results:
* `addFormulaAt_eq`, `addFormulas_eq`: the circuit after formulas have been added, in closed form.
  In particular no wire is ever refused.
* `map_frame_placed`: the gates stand in the order of the nodes, with their operands in the slots.
* `exists_source_iff`: a wire leaves every gate of a formula but its output.
* `bounds_placed`: how far from its output the gates of a formula are drawn.
-/

namespace LogicCircuit

/-! ## The nodes of a formula -/

namespace Formula

/-- The subformulas, each before its operands, the left operand before the right one. -/
def nodes : Formula → List Formula
  | var c => [var c]
  | not f => not f :: f.nodes
  | binary op f g => binary op f g :: (f.nodes ++ g.nodes)

/-- What the gate of a formula computes. -/
def gateKind : Formula → GateKind
  | var c => .var c.toUpper
  | not _ => .not
  | binary op _ _ => .binary op

/-- The gates of the operands of a formula whose own gate is given. -/
def operands (id : GateId) : Formula → List GateId
  | var _ => []
  | not _ => [id + 1]
  | binary _ f _ => [id + 1, id + 1 + f.size]

/-- What the gate of a formula is, apart from where it is drawn. -/
def frame (f : Formula) (id : GateId) : GateId × GateKind × List (Option GateId) :=
  (id, f.gateKind, (f.operands id).map some)

/-- What the gates of nodes are that stand next to each other. -/
def frames (id : GateId) (ns : List Formula) : List (GateId × GateKind × List (Option GateId)) :=
  (ns.zipIdx id).map fun p => p.1.frame p.2

@[simp] theorem length_nodes (f : Formula) : f.nodes.length = f.size := by
  induction f with
  | var c => rfl
  | not f ih => simp [nodes, size, ih]
  | binary op f g ihf ihg => simp [nodes, size, ihf, ihg]

theorem head_nodes (f : Formula) : f.nodes[0]? = some f := by cases f <;> rfl

theorem letters_nodes (f : Formula) :
    f.nodes.filterMap (·.gateKind.letter?) = f.leaves.map Char.toUpper := by
  induction f with
  | var c => rfl
  | not f ih => exact ih
  | binary op f g ihf ihg =>
    rw [leaves, List.map_append, ← ihf, ← ihg, ← List.filterMap_append]
    rfl

/-- An operand comes behind its node. -/
theorem lt_of_mem_operands {f : Formula} {id d : GateId} (h : d ∈ f.operands id) : id < d := by
  cases f with
  | var c => simp [operands] at h
  | not f =>
    obtain rfl := List.mem_singleton.mp h
    exact Nat.lt_succ_self id
  | binary op f g =>
    simp only [operands, List.mem_cons, List.not_mem_nil, or_false] at h
    rcases h with rfl | rfl <;> lia

theorem map_fst_frames (id : GateId) (ns : List Formula) :
    (frames id ns).map (·.1) = List.range' id ns.length := by
  rw [← List.zipIdx_map_snd id ns, frames, List.map_map]
  rfl

theorem mem_frames {ns : List Formula} {p : GateId × GateKind × List (Option GateId)} :
    p ∈ frames 0 ns ↔ ∃ (id : GateId) (t : Formula), ns[id]? = some t ∧ p = t.frame id := by
  simp only [frames, List.mem_map]
  constructor
  · rintro ⟨⟨t, id⟩, hmem, rfl⟩
    exact ⟨id, t, List.mem_zipIdx_iff_getElem?.mp hmem, rfl⟩
  · rintro ⟨id, t, ht, rfl⟩
    exact ⟨(t, id), List.mem_zipIdx_iff_getElem?.mpr ht, rfl⟩

/-! ## The gates and wires of a formula -/

/-- The gate of a formula, given its identifier and where it is drawn. -/
def root (f : Formula) (id : GateId) (x y : Int) : Gate :=
  { Gate.fresh id f.gateKind (.snapped x y) with slots := (f.operands id).map some }

/-- The gates of a formula, the first of them with the given identifier. -/
def placed (id : GateId) (x y : Int) : Formula → List Gate
  | var c => [(var c).root id x y]
  | not f => (not f).root id x y :: f.placed (id + 1) (x - Circuit.operandShift) y
  | binary op f g => (binary op f g).root id x y ::
      (f.placed (id + 1) (x - Circuit.operandShift) (y - Circuit.operandSpread) ++
        g.placed (id + 1 + f.size) (x - Circuit.operandShift) (y + Circuit.operandSpread))

/-- The wires of a formula, those of a gate behind those of its operands. -/
def placedWires (id : GateId) : Formula → List Wire
  | var _ => []
  | not f => f.placedWires (id + 1) ++ [{ source := id + 1, target := id, slot := 0 }]
  | binary _ f g => f.placedWires (id + 1) ++ g.placedWires (id + 1 + f.size) ++
      [{ source := id + 1, target := id, slot := 0 },
        { source := id + 1 + f.size, target := id, slot := 1 }]

theorem map_frame_placed (f : Formula) (id : GateId) (x y : Int) :
    (f.placed id x y).map Gate.frame = frames id f.nodes := by
  induction f generalizing id x y with
  | var c => rfl
  | not f ih =>
    rw [placed, nodes, frames, List.zipIdx_cons, List.map_cons, List.map_cons, ih]
    rfl
  | binary op f g ihf ihg =>
    rw [placed, nodes, frames, List.zipIdx_cons, List.map_cons, List.map_cons, List.zipIdx_append,
      List.map_append, List.map_append, ihf, ihg, length_nodes]
    rfl

theorem map_id_placed (f : Formula) (id : GateId) (x y : Int) :
    (f.placed id x y).map (·.id) = List.range' id f.size := by
  rw [← length_nodes f, ← map_fst_frames, ← f.map_frame_placed id x y, List.map_map]
  rfl

theorem mem_placed {f : Formula} {id : GateId} {x y : Int} {g : Gate}
    (h : g ∈ f.placed id x y) : id ≤ g.id ∧ g.id < id + f.size := by
  have hmem : g.id ∈ List.range' id f.size := by
    rw [← f.map_id_placed id x y]
    exact List.mem_map_of_mem h
  rwa [List.mem_range'_1] at hmem

/-- The first gate of a formula is its output. -/
theorem self_mem_placed (f : Formula) (id : GateId) (x y : Int) :
    id ∈ (f.placed id x y).map (·.id) := by
  rw [map_id_placed, List.mem_range'_1]
  exact ⟨le_rfl, Nat.lt_add_of_pos_right f.size_pos⟩

theorem length_placedWires (f : Formula) (id : GateId) :
    (f.placedWires id).length = f.size - 1 := by
  induction f generalizing id with
  | var c => rfl
  | not f ih =>
    have := f.size_pos
    simp only [placedWires, List.length_append, ih, size, List.length_cons, List.length_nil]
    omega
  | binary op f g ihf ihg =>
    have hf := f.size_pos
    have hg := g.size_pos
    simp only [placedWires, List.length_append, ihf, ihg, size, List.length_cons, List.length_nil]
    omega

/-- A wire leaves every gate of a formula but its output. -/
theorem exists_source_iff (f : Formula) (id : GateId) (d : GateId) :
    (∃ w ∈ f.placedWires id, w.source = d) ↔ id < d ∧ d < id + f.size := by
  induction f generalizing id with
  | var c =>
    simp only [placedWires, List.not_mem_nil, false_and, exists_false, size, false_iff]
    lia
  | not f ih =>
    have := f.size_pos
    simp only [placedWires, List.mem_append, or_and_right, exists_or, ih, size, List.mem_singleton,
      exists_eq_left]
    lia
  | binary op f g ihf ihg =>
    have hf := f.size_pos
    have hg := g.size_pos
    simp only [placedWires, List.mem_append, or_and_right, exists_or, ihf, ihg, size,
      List.mem_cons, List.not_mem_nil, or_false, exists_eq_left]
    lia

/-! ## Several formulas -/

/-- The outputs of several formulas whose gates are laid out one formula after the other. -/
def roots (id : GateId) : List Formula → List GateId
  | [] => []
  | f :: rest => id :: roots (id + f.size) rest

/-- The gates of several formulas. -/
def placedAll (id : GateId) : List Formula → List Gate
  | [] => []
  | f :: rest => f.placed id Circuit.rootPosition.x Circuit.rootPosition.y ++
      placedAll (id + f.size) rest

/-- The wires of several formulas. -/
def placedWiresAll (id : GateId) : List Formula → List Wire
  | [] => []
  | f :: rest => f.placedWires id ++ placedWiresAll (id + f.size) rest

theorem length_flatMap_nodes (fs : List Formula) :
    (fs.flatMap nodes).length = (fs.map size).sum := by
  rw [List.length_flatMap]
  simp only [length_nodes]

theorem map_frame_placedAll (fs : List Formula) (id : GateId) :
    (placedAll id fs).map Gate.frame = frames id (fs.flatMap nodes) := by
  induction fs generalizing id with
  | nil => rfl
  | cons f fs ih =>
    rw [placedAll, List.flatMap_cons, frames, List.zipIdx_append, List.map_append, List.map_append,
      ih, map_frame_placed, length_nodes]
    rfl

theorem length_placedWiresAll (fs : List Formula) (id : GateId) :
    (placedWiresAll id fs).length = (fs.map fun f => f.size - 1).sum := by
  induction fs generalizing id with
  | nil => rfl
  | cons f fs ih =>
    rw [placedWiresAll, List.length_append, length_placedWires, ih, List.map_cons, List.sum_cons]

theorem exists_mem_placed {fs : List Formula} {id : GateId} {a : Gate} (h : a ∈ placedAll id fs) :
    ∃ f ∈ fs, ∃ d, a ∈ f.placed d Circuit.rootPosition.x Circuit.rootPosition.y := by
  induction fs generalizing id with
  | nil => cases h
  | cons f fs ih =>
    rcases List.mem_append.mp h with h | h
    · exact ⟨f, List.mem_cons_self, id, h⟩
    · obtain ⟨f', hf', ha⟩ := ih h
      exact ⟨f', List.mem_cons_of_mem f hf', ha⟩

/-! ## Where the gates are drawn -/

theorem bounds_root (f : Formula) (id : GateId) (x y : Int) :
    (x - 10 ≤ (f.root id x y).position.x ∧ (f.root id x y).position.x ≤ x + 10) ∧
      y - 10 ≤ (f.root id x y).position.y ∧ (f.root id x y).position.y ≤ y + 10 :=
  ⟨Position.snap_bounds x, Position.snap_bounds y⟩

/-- Each level below the output takes the gates of a formula one shift to the left, and at most one
spread up or down. -/
theorem bounds_placed {f : Formula} {id : GateId} {x y : Int} {a : Gate}
    (h : a ∈ f.placed id x y) :
    (x - Circuit.operandShift * (f.height - 1) - 10 ≤ a.position.x ∧ a.position.x ≤ x + 10) ∧
      y - Circuit.operandSpread * (f.height - 1) - 10 ≤ a.position.y ∧
      a.position.y ≤ y + Circuit.operandSpread * (f.height - 1) + 10 := by
  have hpos := f.height_pos
  unfold Circuit.operandShift Circuit.operandSpread
  induction f generalizing id x y with
  | var c =>
    obtain rfl := List.mem_singleton.mp h
    have hroot := (var c).bounds_root id x y
    lia
  | not f ih =>
    rcases List.mem_cons.mp h with rfl | h
    · have hroot := (not f).bounds_root id x y
      lia
    · have hf := ih h f.height_pos
      unfold Circuit.operandShift at hf
      rw [height]
      lia
  | binary op f g ihf ihg =>
    rcases List.mem_cons.mp h with rfl | h
    · have hroot := (binary op f g).bounds_root id x y
      lia
    rw [height]
    unfold Circuit.operandShift Circuit.operandSpread at h
    rcases List.mem_append.mp h with h | h
    · have hf := ihf h f.height_pos
      lia
    · have hg := ihg h g.height_pos
      lia

/-! ## The outputs of several formulas -/

theorem mem_roots {fs : List Formula} {id d : GateId} (h : d ∈ roots id fs) :
    id ≤ d ∧ d < id + (fs.map size).sum := by
  induction fs generalizing id with
  | nil => cases h
  | cons f fs ih =>
    have hpos := f.size_pos
    rw [List.map_cons, List.sum_cons]
    rcases List.mem_cons.mp h with rfl | h
    · lia
    · have := ih h
      lia

theorem ascending_roots (fs : List Formula) (id : GateId) : (roots id fs).Pairwise (· < ·) := by
  induction fs generalizing id with
  | nil => exact .nil
  | cons f fs ih =>
    refine List.pairwise_cons.mpr ⟨fun d hd => ?_, ih _⟩
    have hpos := f.size_pos
    have := (mem_roots hd).1
    lia

/-- A wire leaves every gate of the formulas but their outputs. -/
theorem exists_source_all_iff (fs : List Formula) (id d : GateId) :
    (∃ w ∈ placedWiresAll id fs, w.source = d) ↔
      id ≤ d ∧ d < id + (fs.map size).sum ∧ d ∉ roots id fs := by
  induction fs generalizing id with
  | nil => simp [placedWiresAll, roots]
  | cons f fs ih =>
    have hpos := f.size_pos
    have hroots := fun h : d ∈ roots (id + f.size) fs => mem_roots h
    simp only [placedWiresAll, List.mem_append, or_and_right, exists_or, exists_source_iff, ih,
      roots, List.mem_cons, not_or, List.map_cons, List.sum_cons]
    lia

/-- The output of each formula is the gate of its outermost node. -/
theorem getElem?_roots (fs : List Formula) (before : List Formula) :
    (roots before.length fs).map (fun d => (before ++ fs.flatMap nodes)[d]?) = fs.map some := by
  induction fs generalizing before with
  | nil => rfl
  | cons f fs ih =>
    have hrest := ih (before ++ f.nodes)
    rw [List.length_append, length_nodes, List.append_assoc] at hrest
    rw [roots, List.map_cons, List.map_cons, List.flatMap_cons, hrest]
    rw [List.getElem?_append_right le_rfl, Nat.sub_self,
      List.getElem?_append_left (by rw [length_nodes]; exact f.size_pos), head_nodes]

end Formula

namespace Circuit

/-! ## Adding gates and wires -/

theorem addGate_eq {c : Circuit} (hids : ∀ g ∈ c.gates, g.id < c.nextId) (hn : c.nextId < idBound)
    (kind : GateKind) (position : Position) :
    c.addGate kind position = (c.nextId, { c with
      gates := c.gates ++ [.fresh c.nextId kind.normalized position]
      nextId := c.nextId + 1 }) := by
  unfold addGate allocate
  rw [if_pos hn]
  simp only [insertGate_eq_append (g := .fresh c.nextId kind.normalized position) hids]

/-- A wire from a gate further behind into an empty slot is never refused. -/
theorem wire_eq {before after : List Gate} {wires : List Wire} {n : GateId} {g : Gate}
    {operand gate : GateId} {slot : Nat} (hid : g.id = gate) (hb : ∀ a ∈ before, a.id < gate)
    (ha : ∀ a ∈ after, gate < a.id) (ho : operand ∈ after.map (·.id))
    (hs : slot < g.slots.length) (hd : g.driver? slot = none) :
    wire { gates := before ++ g :: after, wires, nextId := n } operand gate slot =
      { gates := before ++ { g with slots := g.slots.set slot (some operand) } :: after
        wires := wires ++ [{ source := operand, target := gate, slot }]
        nextId := n } := by
  subst hid
  have hkeep : ∀ l : List Gate, (∀ a ∈ l, a.id ≠ g.id) → l.map (fun a =>
      if a.id = g.id then { a with slots := a.slots.set slot (some operand) } else a) = l := by
    intro l hl
    rw [List.map_congr_left fun a hmem => if_neg (hl a hmem), List.map_id']
  have hfind : gate? { gates := before ++ g :: after, wires, nextId := n } g.id = some g := by
    unfold gate?
    rw [List.find?_append, List.find?_eq_none.mpr fun a hmem => by simp [(hb a hmem).ne]]
    simp
  have hmem : operand ∈ ids { gates := before ++ g :: after, wires, nextId := n } := by
    unfold ids
    rw [List.map_append, List.map_cons]
    exact List.mem_append_right _ (List.mem_cons_of_mem _ ho)
  have hne : operand ≠ g.id := by
    obtain ⟨a, ha', rfl⟩ := List.mem_map.mp ho
    exact (ha a ha').ne'
  unfold wire
  rw [connect_eq_ok_iff.mpr ⟨hmem, hne, ⟨g, hfind, hs, hd⟩, rfl⟩]
  unfold attach setSlot modifyGate mapGates
  simp only
  rw [List.map_append, List.map_cons, hkeep before fun a hmem => (hb a hmem).ne,
    hkeep after fun a hmem => (ha a hmem).ne', if_pos rfl]

/-! ## Adding formulas -/

theorem id_lt_append_fresh {l : List Gate} {id : GateId} (hl : ∀ g ∈ l, g.id < id)
    (kind : GateKind) (position : Position) :
    ∀ g ∈ l ++ [.fresh id kind position], g.id < id + 1 := by
  intro g hg
  rcases List.mem_append.mp hg with hg | hg
  · exact Nat.lt_succ_of_lt (hl g hg)
  · obtain rfl := List.mem_singleton.mp hg
    exact Nat.lt_succ_self id

theorem id_lt_append_placed {l : List Gate} {id : GateId} (hl : ∀ g ∈ l, g.id < id) (f : Formula)
    (x y : Int) : ∀ g ∈ l ++ f.placed id x y, g.id < id + f.size := by
  intro g hg
  rcases List.mem_append.mp hg with hg | hg
  · exact Nat.lt_add_right f.size (hl g hg)
  · exact (Formula.mem_placed hg).2

/-- The circuit after a formula has been added. -/
theorem addFormulaAt_eq {c : Circuit} (f : Formula) (hids : ∀ g ∈ c.gates, g.id < c.nextId)
    (hn : c.nextId + f.size ≤ idBound) (x y : Int) :
    c.addFormulaAt f x y = (c.nextId,
      { gates := c.gates ++ f.placed c.nextId x y
        wires := c.wires ++ f.placedWires c.nextId
        nextId := c.nextId + f.size }) := by
  induction f generalizing c x y with
  | var letter =>
    rw [addFormulaAt, addGate_eq hids hn, Formula.placedWires, List.append_nil]
    rfl
  | not f ih =>
    rw [Formula.size] at hn
    rw [addFormulaAt, addGate_eq hids (by lia)]
    dsimp only
    rw [ih (id_lt_append_fresh hids _ _) (by dsimp only; lia)]
    dsimp only
    rw [List.append_assoc, List.singleton_append, wire_eq ?_ hids ?_ ?_ ?_ ?_]
    · rw [Formula.placed, Formula.placedWires, Formula.size, List.append_assoc, Nat.add_right_comm]
      rfl
    · rfl
    · intro a hmem
      exact (Formula.mem_placed hmem).1
    · exact Formula.self_mem_placed f _ _ _
    · exact Nat.one_pos
    · rfl
  | binary op f g ihf ihg =>
    rw [Formula.size] at hn
    rw [addFormulaAt, addGate_eq hids (by lia)]
    dsimp only
    rw [ihf (id_lt_append_fresh hids _ _) (by dsimp only; lia)]
    dsimp only
    rw [ihg (id_lt_append_placed (id_lt_append_fresh hids _ _) f _ _) (by dsimp only; lia)]
    dsimp only
    have hbehind : ∀ a ∈ f.placed (c.nextId + 1) (x - operandShift) (y - operandSpread) ++
        g.placed (c.nextId + 1 + f.size) (x - operandShift) (y + operandSpread),
        c.nextId < a.id := by
      intro a hmem
      rcases List.mem_append.mp hmem with hmem | hmem
      · exact (Formula.mem_placed hmem).1
      · have := (Formula.mem_placed hmem).1
        lia
    rw [List.append_assoc, List.append_assoc, List.singleton_append,
      wire_eq ?_ hids hbehind ?_ ?_ ?_, wire_eq ?_ hids hbehind ?_ ?_ ?_]
    · rw [Formula.placed, Formula.placedWires, Formula.size]
      have hn' : c.nextId + 1 + f.size + g.size = c.nextId + (f.size + g.size + 1) := by lia
      simp only [List.append_assoc, List.cons_append, List.nil_append, hn']
      rfl
    · rfl
    · rw [List.map_append, List.mem_append]
      exact Or.inr (Formula.self_mem_placed g _ _ _)
    · exact Nat.one_lt_two
    · rfl
    · rfl
    · rw [List.map_append, List.mem_append]
      exact Or.inl (Formula.self_mem_placed f _ _ _)
    · exact Nat.two_pos
    · rfl

theorem addFormulas_eq {c : Circuit} (fs : List Formula) (hids : ∀ g ∈ c.gates, g.id < c.nextId)
    (hn : c.nextId + (fs.map Formula.size).sum ≤ idBound) :
    c.addFormulas fs = (Formula.roots c.nextId fs,
      { gates := c.gates ++ Formula.placedAll c.nextId fs
        wires := c.wires ++ Formula.placedWiresAll c.nextId fs
        nextId := c.nextId + (fs.map Formula.size).sum }) := by
  induction fs generalizing c with
  | nil => simp [addFormulas, Formula.roots, Formula.placedAll, Formula.placedWiresAll]
  | cons f fs ih =>
    rw [List.map_cons, List.sum_cons] at hn
    rw [addFormulas, addFormula, addFormulaAt_eq f hids (by lia)]
    dsimp only
    rw [ih (id_lt_append_placed hids f _ _) (by dsimp only; lia)]
    simp only [Formula.roots, Formula.placedAll, Formula.placedWiresAll, List.append_assoc,
      List.map_cons, List.sum_cons, Nat.add_assoc]

end Circuit

end LogicCircuit
