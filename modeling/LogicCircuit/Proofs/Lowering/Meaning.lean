import LogicCircuit.Proofs.Evaluation.Exact
import LogicCircuit.Proofs.Lowering.Layout

/-!
# Circuits of formulas mean what the formulas mean

The gates of a formula are wired to gates further behind, so their circuit has no loop and one
evaluation. The equation of the gate of a node is the recursion equation of the value of that node,
so the evaluation gives every node its value.

Results:
* `prefix_drop_nodes`: the nodes of a subformula stand next to each other.
* `value_of_equations`: a solution of the equations of the gates gives every node its value.
* `addFormulas_realizes`: the circuit of formulas, and the first output of the circuit of a text.
-/

namespace LogicCircuit

/-! ## Subformulas -/

namespace Formula

/-- The nodes of a subformula stand next to each other, from its own node on. -/
theorem prefix_drop_nodes {f t : Formula} {k : Nat} (h : f.nodes[k]? = some t) :
    t.nodes <+: f.nodes.drop k := by
  induction f generalizing k with
  | var c =>
    cases k with
    | zero => cases h; exact List.prefix_rfl
    | succ k => cases h
  | not f ih =>
    cases k with
    | zero => cases h; exact List.prefix_rfl
    | succ k => exact ih h
  | binary op f g ihf ihg =>
    cases k with
    | zero => cases h; exact List.prefix_rfl
    | succ k =>
      rw [nodes, List.getElem?_cons_succ] at h
      rw [nodes, List.drop_succ_cons, List.drop_append]
      rcases Nat.lt_or_ge k f.nodes.length with hk | hk
      · rw [List.getElem?_append_left hk] at h
        exact (ihf h).trans (List.prefix_append _ _)
      · rw [List.getElem?_append_right hk] at h
        rw [List.drop_eq_nil_of_le hk]
        exact ihg h

theorem prefix_drop_flatMap_nodes {fs : List Formula} {t : Formula} {k : Nat}
    (h : (fs.flatMap nodes)[k]? = some t) : t.nodes <+: (fs.flatMap nodes).drop k := by
  induction fs generalizing k with
  | nil => cases h
  | cons f fs ih =>
    rw [List.flatMap_cons] at h ⊢
    rw [List.drop_append]
    rcases Nat.lt_or_ge k f.nodes.length with hk | hk
    · rw [List.getElem?_append_left hk] at h
      exact (prefix_drop_nodes h).trans (List.prefix_append _ _)
    · rw [List.getElem?_append_right hk] at h
      rw [List.drop_eq_nil_of_le hk]
      exact ih h

/-- What follows a node is found behind it, where its own nodes tell. -/
theorem getElem?_add_of_prefix {ns : List Formula} {t u : Formula} {k i : Nat}
    (h : t.nodes <+: ns.drop k) (hu : t.nodes[i]? = some u) : ns[k + i]? = some u := by
  obtain ⟨rest, hrest⟩ := h
  rw [← List.getElem?_drop, ← hrest, List.getElem?_append_left (List.getElem?_eq_some_iff.mp hu).1,
    hu]

/-! ## Operands -/

section Operands

variable {ns : List Formula} {k : GateId} {f g : Formula} {op : Operator}
  (hns : ∀ k t, ns[k]? = some t → t.nodes <+: ns.drop k)
include hns

theorem getElem?_negated (h : ns[k]? = some (not f)) : ns[k + 1]? = some f :=
  getElem?_add_of_prefix (hns k _ h) (head_nodes f)

theorem getElem?_left (h : ns[k]? = some (binary op f g)) : ns[k + 1]? = some f := by
  refine getElem?_add_of_prefix (hns k _ h) ?_
  rw [nodes, List.getElem?_cons_succ, List.getElem?_append_left (by simp), head_nodes]

theorem getElem?_right (h : ns[k]? = some (binary op f g)) : ns[k + 1 + f.size]? = some g := by
  rw [Nat.add_assoc]
  refine getElem?_add_of_prefix (hns k _ h) ?_
  rw [nodes, Nat.add_comm, List.getElem?_cons_succ, List.getElem?_append_right (by simp),
    length_nodes, Nat.sub_self, head_nodes]

end Operands

/-! ## The equations of the gates -/

/-- What the gate of a node computes from the values of the gates behind it. -/
theorem compute_of_frame {g : Gate} {t : Formula} {id : GateId} (s : Assignment)
    (v : GateId → Value) (h : g.frame = t.frame id) :
    g.compute s v =
      match t with
      | var c => s.value c
      | not _ => (v (id + 1)).complement
      | binary op f _ => op.combine (v (id + 1)) (v (id + 1 + f.size)) := by
  simp only [Gate.frame, Formula.frame, Prod.mk.injEq] at h
  obtain ⟨-, hkind, hslots⟩ := h
  unfold Gate.compute Gate.inputValue Gate.driver?
  rw [hkind, hslots]
  cases t with
  | var c => simp [gateKind, Assignment.value, Assignment.get?]
  | not f => rfl
  | binary op f g => rfl

/-- A solution of the equations of the gates of some nodes gives every node its value. -/
theorem value_of_equations {ns : List Formula} {s : Assignment} {v : GateId → Value}
    (hns : ∀ k t, ns[k]? = some t → t.nodes <+: ns.drop k)
    (hv : ∀ k t, ns[k]? = some t → ∃ g : Gate, v k = g.compute s v ∧ g.frame = t.frame k)
    {t : Formula} {k : GateId} (ht : ns[k]? = some t) : v k = t.value s := by
  induction t generalizing k with
  | var c =>
    obtain ⟨g, hcompute, hframe⟩ := hv k _ ht
    rw [hcompute, compute_of_frame s v hframe]
    rfl
  | not f ih =>
    obtain ⟨g, hcompute, hframe⟩ := hv k _ ht
    rw [hcompute, compute_of_frame s v hframe]
    simp only [value]
    rw [ih (getElem?_negated hns ht)]
  | binary op f g ihf ihg =>
    obtain ⟨gate, hcompute, hframe⟩ := hv k _ ht
    rw [hcompute, compute_of_frame s v hframe]
    simp only [value]
    rw [ihf (getElem?_left hns ht), ihg (getElem?_right hns ht)]

end Formula

/-! ## The circuit of several formulas -/

namespace Circuit

/-- The circuit consists of the gates of the formulas and of nothing else, and means what they
mean. Here a gate is the gate of a node, its identifier being the rank of the node, and the
outputs are the given gates. -/
structure Realizes (c : Circuit) (fs : List Formula) (outputs : List GateId) : Prop where
  consistent : c.isConsistent = true
  acyclic : c.Acyclic
  /-- The gates come in the order of the nodes, each before its operands. -/
  gates : c.gates.map Gate.frame = Formula.frames 0 (fs.flatMap Formula.nodes)
  ids : c.ids = List.range (fs.map Formula.size).sum
  wires : c.wires.length = (fs.map fun f => f.size - 1).sum
  complete : ∀ g ∈ c.gates, g.isComplete = true
  sinks : c.sinks = outputs
  roots : outputs.map (fun id => (fs.flatMap Formula.nodes)[id]?) = fs.map some
  letters : c.registry.letters = ((fs.flatMap Formula.leaves).map Char.toUpper).eraseDups
  /-- Evaluation succeeds, the value at the gate of every node is the value of the node, and the
  outputs are the values of the formulas. -/
  meaning : ∀ s, ∃ e, c.evaluate s = .ok e ∧ e.outputs = fs.map (·.value s) ∧
    ∀ id t, (fs.flatMap Formula.nodes)[id]? = some t → e.value id = t.value s

/-- The circuit of several formulas. -/
def ofFormulas (fs : List Formula) : Circuit where
  gates := Formula.placedAll 0 fs
  wires := Formula.placedWiresAll 0 fs
  nextId := (fs.map Formula.size).sum

theorem addFormulas_empty {fs : List Formula} (h : (fs.map Formula.size).sum < idBound) :
    empty.addFormulas fs = (Formula.roots 0 fs, ofFormulas fs) := by
  rw [addFormulas_eq fs (by simp [empty]) (by simp only [empty]; lia)]
  simp [empty, ofFormulas]

variable {c : Circuit} {ns : List Formula}

theorem exists_gate_of_node (hc : c.gates.map Gate.frame = Formula.frames 0 ns) {id : GateId}
    {t : Formula} (ht : ns[id]? = some t) : ∃ g ∈ c.gates, g.frame = t.frame id := by
  refine List.mem_map.mp ?_
  rw [hc]
  exact Formula.mem_frames.mpr ⟨id, t, ht, rfl⟩

theorem exists_node_of_gate (hc : c.gates.map Gate.frame = Formula.frames 0 ns) {g : Gate}
    (hg : g ∈ c.gates) : ∃ t : Formula, g.frame = t.frame g.id := by
  have hmem : g.frame ∈ Formula.frames 0 ns := hc ▸ List.mem_map_of_mem hg
  obtain ⟨id, t, -, h⟩ := Formula.mem_frames.mp hmem
  obtain rfl : g.id = id := congrArg (·.1) h
  exact ⟨t, h⟩

/-- Gates of formulas are driven by gates further behind only. -/
theorem acyclic_of_frames (hc : c.gates.map Gate.frame = Formula.frames 0 ns) : c.Acyclic := by
  refine acyclic_of_lt ?_
  rintro _ d ⟨g, hg, rfl, hd⟩
  obtain ⟨t, ht⟩ := exists_node_of_gate hc hg
  simp only [Gate.frame, Formula.frame, Prod.mk.injEq] at ht
  refine Formula.lt_of_mem_operands (f := t) ?_
  simpa [Gate.inputs, ht.2.2] using hd

theorem isComplete_of_frames (hc : c.gates.map Gate.frame = Formula.frames 0 ns) {g : Gate}
    (hg : g ∈ c.gates) : g.isComplete = true := by
  obtain ⟨t, ht⟩ := exists_node_of_gate hc hg
  simp only [Gate.frame, Formula.frame, Prod.mk.injEq] at ht
  simp [Gate.isComplete, ht.2.2]

theorem ids_of_nodes (hc : c.gates.map Gate.frame = Formula.frames 0 ns) :
    c.ids = List.range ns.length := by
  rw [List.range_eq_range', ← Formula.map_fst_frames, ← hc, List.map_map]
  rfl

theorem letters_of_frames (hc : c.gates.map Gate.frame = Formula.frames 0 ns) :
    c.letters = (ns.filterMap (·.gateKind.letter?)).eraseDups := by
  have h : c.gates.map (·.kind) = ns.map (·.gateKind) := by
    have hk := congrArg (List.map (·.2.1)) hc
    rw [Formula.frames, List.map_map, List.map_map] at hk
    rw [← List.zipIdx_map_fst 0 ns, List.map_map]
    exact hk
  have hl := congrArg (List.filterMap GateKind.letter?) h
  rw [List.filterMap_map, List.filterMap_map] at hl
  exact congrArg List.eraseDups hl

theorem letters_flatMap_nodes (fs : List Formula) :
    (fs.flatMap Formula.nodes).filterMap (·.gateKind.letter?) =
      (fs.flatMap Formula.leaves).map Char.toUpper := by
  induction fs with
  | nil => rfl
  | cons f fs ih =>
    rw [List.flatMap_cons, List.flatMap_cons, List.filterMap_append, List.map_append, ih,
      Formula.letters_nodes]

theorem ids_ofFormulas (fs : List Formula) :
    (ofFormulas fs).ids = List.range (fs.map Formula.size).sum := by
  rw [← Formula.length_flatMap_nodes]
  exact ids_of_nodes (Formula.map_frame_placedAll fs 0)

/-- No wire leaves the outputs of formulas, and one leaves every other gate. -/
theorem sinks_ofFormulas (fs : List Formula) : (ofFormulas fs).sinks = Formula.roots 0 fs := by
  have hasc : (ofFormulas fs).sinks.Pairwise (· < ·) := by
    unfold sinks
    rw [ids_ofFormulas]
    exact List.pairwise_lt_range.sublist List.filter_sublist
  have hroots := Formula.ascending_roots fs 0
  have hsame : ∀ d, d ∈ (ofFormulas fs).sinks ↔ d ∈ Formula.roots 0 fs := by
    intro d
    have hroot := fun h : d ∈ Formula.roots 0 fs => Formula.mem_roots h
    have hsource := Formula.exists_source_all_iff fs 0 d
    rw [mem_sinks, ids_ofFormulas, List.mem_range]
    have hno : (∀ w ∈ (ofFormulas fs).wires, w.source ≠ d) ↔
        ¬ ∃ w ∈ Formula.placedWiresAll 0 fs, w.source = d := by
      simp [ofFormulas]
    rw [hno, hsource]
    lia
  refine List.Perm.eq_of_pairwise ?_ hasc hroots ?_
  · exact fun a b _ _ hab hba => absurd (hab.trans hba) (lt_irrefl a)
  · exact (List.perm_ext_iff_of_nodup (hasc.imp fun h => h.ne) (hroots.imp fun h => h.ne)).mpr hsame

/-! ## Its evaluation -/

theorem wellFormed_ofFormulas {fs : List Formula} (h : (fs.map Formula.size).sum < idBound) :
    (ofFormulas fs).WellFormed := by
  have hc : (empty.addFormulas fs).2.WellFormed :=
    WellFormed.empty.addFormulas (by simpa [empty] using h.le)
  rwa [addFormulas_empty h] at hc

theorem map_eq_of_map_find {find : GateId → Option Formula} {v : GateId → Value}
    {w : Formula → Value} {l : List GateId} {fs : List Formula} (h : l.map find = fs.map some)
    (hv : ∀ id t, find id = some t → v id = w t) : l.map v = fs.map w := by
  induction fs generalizing l with
  | nil =>
    rw [List.map_nil, List.map_eq_nil_iff] at h
    rw [h]
    rfl
  | cons f fs ih =>
    obtain ⟨id, rest, rfl, hid, hrest⟩ := List.map_eq_cons_iff.mp h
    rw [List.map_cons, List.map_cons, hv id f hid, ih hrest]

theorem evaluate_ofFormulas {fs : List Formula} (h : (fs.map Formula.size).sum < idBound)
    (s : Assignment) :
    ∃ e, (ofFormulas fs).evaluate s = .ok e ∧ e.outputs = fs.map (·.value s) ∧
      ∀ id t, (fs.flatMap Formula.nodes)[id]? = some t → e.value id = t.value s := by
  have hwf := wellFormed_ofFormulas h
  have hframes : (ofFormulas fs).gates.map Gate.frame =
      Formula.frames 0 (fs.flatMap Formula.nodes) := Formula.map_frame_placedAll fs 0
  obtain ⟨e, he, hexact⟩ := evaluate_acyclic hwf (acyclic_of_frames hframes) s
  have hvalue : ∀ id t, (fs.flatMap Formula.nodes)[id]? = some t → e.value id = t.value s := by
    intro id t ht
    refine Formula.value_of_equations (fun _ _ => Formula.prefix_drop_flatMap_nodes) ?_ ht
    intro k u hu
    obtain ⟨g, hg, hframe⟩ := exists_gate_of_node hframes hu
    obtain rfl : g.id = k := congrArg (·.1) hframe
    exact ⟨g, Gate.equation_iff.mp (hexact.solves g hg), hframe⟩
  refine ⟨e, he, ?_, hvalue⟩
  rw [Evaluation.outputs, sinks_evaluate he, sinks_ofFormulas]
  exact map_eq_of_map_find (Formula.getElem?_roots fs []) hvalue

theorem realizes_ofFormulas {fs : List Formula} (h : (fs.map Formula.size).sum < idBound) :
    (ofFormulas fs).Realizes fs (Formula.roots 0 fs) := by
  have hframes : (ofFormulas fs).gates.map Gate.frame =
      Formula.frames 0 (fs.flatMap Formula.nodes) := Formula.map_frame_placedAll fs 0
  exact {
    consistent := (wellFormed_ofFormulas h).isConsistent
    acyclic := acyclic_of_frames hframes
    gates := hframes
    ids := ids_ofFormulas fs
    wires := Formula.length_placedWiresAll fs 0
    complete := fun g hg => isComplete_of_frames hframes hg
    sinks := sinks_ofFormulas fs
    roots := Formula.getElem?_roots fs []
    letters := by rw [letters_registry, letters_of_frames hframes, letters_flatMap_nodes]
    meaning := evaluate_ofFormulas h }

/-- The circuit of any formulas, of fewer nodes than there are identifiers, consists of a gate for
each node and evaluates it under every assignment, partial or total. In particular the first output
of the circuit of a text is the value of the formula of the text. -/
theorem addFormulas_realizes :
    (∀ fs : List Formula, (fs.map Formula.size).sum < idBound →
      (empty.addFormulas fs).2.Realizes fs (empty.addFormulas fs).1) ∧
    ∀ (text : String) (limits : Limits) (c : Circuit) (f : Formula),
      compile text limits = .ok c → Formula.parse text limits = .ok f → f.size < idBound →
      ∀ s, ∃ e, c.evaluate s = .ok e ∧ e.firstOutput = f.value s := by
  have hall : ∀ fs : List Formula, (fs.map Formula.size).sum < idBound →
      (empty.addFormulas fs).2.Realizes fs (empty.addFormulas fs).1 := by
    intro fs h
    rw [addFormulas_empty h]
    exact realizes_ofFormulas h
  refine ⟨hall, fun text limits c f hc hf h s => ?_⟩
  rw [compile, hf] at hc
  cases hc
  obtain ⟨e, he, hout, -⟩ := (hall [f] (by simpa using h)).meaning s
  refine ⟨e, he, ?_⟩
  rw [Evaluation.firstOutput, hout]
  rfl

theorem addFormulas_realizes_partial :
    (empty.addFormulas [.var 'é', .binary .nor (.not (.var 'b')) (.var 'B')]).2.Realizes
      [.var 'é', .binary .nor (.not (.var 'b')) (.var 'B')]
      (empty.addFormulas [.var 'é', .binary .nor (.not (.var 'b')) (.var 'B')]).1 ∧
    ∃ c e, compile "a+b'" {} = .ok c ∧ c.evaluate (.ofList [('a', false), ('B', false)]) = .ok e ∧
      e.firstOutput = .known true := by
  have hf : Formula.parse "a+b'" {} = .ok (.binary .or (.var 'A') (.not (.var 'B'))) :=
    eq_ok_of_toOption (by decide +kernel)
  have hc : compile "a+b'" {} = .ok (ofFormula (.binary .or (.var 'A') (.not (.var 'B')))) := by
    rw [compile, hf]
    rfl
  obtain ⟨e, he, hout⟩ := addFormulas_realizes.2 "a+b'" {} _ _ hc hf (by decide)
    (.ofList [('a', false), ('B', false)])
  refine ⟨addFormulas_realizes.1 _ (by decide), _, e, hc, he, ?_⟩
  rw [hout]
  decide

end Circuit

end LogicCircuit
