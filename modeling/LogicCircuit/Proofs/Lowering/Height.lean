import LogicCircuit.Proofs.Circuit.Depth
import LogicCircuit.Proofs.Formula.Reading
import LogicCircuit.Proofs.Lowering.Meaning

/-!
# Circuits of formulas are as deep as the formulas are high

The gate of a node depends on the gates of its operands and on nothing else, so that the paths from
it are the ways down from the node. The limit on the height of a formula thereby bounds the paths of
its circuit. There is one exception. The height of every node but a letter is held against the limit
when the node is built, and that of a letter is not, so that a limit of zero lets a single letter
pass.

Results:
* `longestFrom_node`: how long the paths from the gate of a node are.
* `isGreatest_path_ofFormula`, `depth?_ofFormula`: the longest path in the circuit of a formula.
* `Formula.height_of_parse`: what the limit says about the height of a formula that was read.
* `compile_depth`: what it says about the circuit of a text.
-/

namespace LogicCircuit

namespace Formula

/-! ## The height of nodes -/

theorem height_le_of_mem_nodes {f t : Formula} (h : t ∈ f.nodes) : t.height ≤ f.height := by
  induction f with
  | var c =>
    obtain rfl := List.mem_singleton.mp h
    exact le_rfl
  | not f ih =>
    rcases List.mem_cons.mp h with rfl | h
    · exact le_rfl
    · exact (ih h).trans (Nat.le_succ _)
  | binary op f g ihf ihg =>
    rw [nodes, List.mem_cons, List.mem_append] at h
    rw [height]
    rcases h with rfl | h | h
    · exact le_rfl
    · have := ihf h
      omega
    · have := ihg h
      omega

/-- The number of nodes below a node on the longest way down from it. -/
def levelAt (ns : List Formula) (k : GateId) : Nat := (ns[k]?).elim 0 (·.height - 1)

theorem levelAt_add_one {ns : List Formula} {k : GateId} {t : Formula} (h : ns[k]? = some t) :
    levelAt ns k + 1 = t.height := by
  have := t.height_pos
  rw [levelAt, h, Option.elim_some]
  omega

/-- The level of a node is found from those of its operands. -/
theorem foldl_levelAt {ns : List Formula} (hns : ∀ k t, ns[k]? = some t → t.nodes <+: ns.drop k)
    {k : GateId} {t : Formula} (h : ns[k]? = some t) :
    (t.operands k).foldl (fun n d => max n (levelAt ns d + 1)) 0 = levelAt ns k := by
  have hlevel := levelAt_add_one h
  cases t with
  | var c =>
    rw [height] at hlevel
    rw [operands, List.foldl_nil]
    omega
  | not f =>
    rw [height] at hlevel
    rw [operands, List.foldl_cons, List.foldl_nil, levelAt_add_one (getElem?_negated hns h)]
    omega
  | binary op f g =>
    rw [height] at hlevel
    rw [operands, List.foldl_cons, List.foldl_cons, List.foldl_nil,
      levelAt_add_one (getElem?_left hns h), levelAt_add_one (getElem?_right hns h)]
    omega

/-! ## The height under a limit -/

theorem exists_letter_of_height_le {f : Formula} (h : f.height ≤ 1) :
    ∃ letter, f = .var letter := by
  cases f with
  | var letter => exact ⟨letter, rfl⟩
  | not f =>
    have := f.height_pos
    rw [height] at h
    omega
  | binary op f g =>
    have := f.height_pos
    rw [height] at h
    omega

/-- A formula that was read is no higher than the limit, or it is a letter under the limit zero. -/
theorem height_of_parse {text : String} {limits : Limits} {f : Formula}
    (h : parse text limits = .ok f) :
    f.height ≤ limits.depth ∨ limits.depth = 0 ∧ ∃ letter, f = .var letter := by
  obtain ⟨lexemes, -, hread⟩ := bind_eq_ok.mp h
  obtain ⟨t, htokens, rfl⟩ := exists_phrase hread
  rw [ofLexemes_phrase t limits htokens.symm] at hread
  split_ifs at hread with hfits
  have hheight : t.formula.height ≤ max limits.depth 1 := hfits.2
  by_cases hzero : limits.depth = 0
  · exact Or.inr ⟨hzero, exists_letter_of_height_le (by omega)⟩
  · left
    omega

end Formula

namespace Circuit

/-! ## The paths from the gate of a node -/

section Nodes

variable {c : Circuit} {ns : List Formula} (hc : c.WellFormed)
  (hframes : c.gates.map Gate.frame = Formula.frames 0 ns)
  (hns : ∀ k t, ns[k]? = some t → t.nodes <+: ns.drop k)
include hc hframes hns

theorem longestFrom_of_operands {k : GateId} {t : Formula} (ht : ns[k]? = some t)
    (h : ∀ d ∈ t.operands k, c.LongestFrom d (Formula.levelAt ns d)) :
    c.LongestFrom k (Formula.levelAt ns k) := by
  obtain ⟨g, hg, hframe⟩ := exists_gate_of_node hframes ht
  simp only [Gate.frame, Formula.frame, Prod.mk.injEq] at hframe
  obtain ⟨rfl, -, hslots⟩ := hframe
  have hinputs : g.inputs = t.operands g.id := by simp [Gate.inputs, hslots]
  rw [← Formula.foldl_levelAt hns ht, ← hinputs]
  exact .of_inputs hc hg (hinputs ▸ h)

/-- The longest path from the gate of a node is the longest way down from the node. -/
theorem longestFrom_node {k : GateId} {t : Formula} (ht : ns[k]? = some t) :
    c.LongestFrom k (Formula.levelAt ns k) := by
  induction t generalizing k with
  | var letter => exact longestFrom_of_operands hc hframes hns ht (by simp [Formula.operands])
  | not f ih =>
    refine longestFrom_of_operands hc hframes hns ht fun d hd => ?_
    obtain rfl := List.mem_singleton.mp hd
    exact ih (Formula.getElem?_negated hns ht)
  | binary op f g ihf ihg =>
    refine longestFrom_of_operands hc hframes hns ht fun d hd => ?_
    simp only [Formula.operands, List.mem_cons, List.not_mem_nil, or_false] at hd
    rcases hd with rfl | rfl
    · exact ihf (Formula.getElem?_left hns ht)
    · exact ihg (Formula.getElem?_right hns ht)

end Nodes

/-! ## The circuit of a formula -/

section OfFormula

variable {f : Formula} (h : f.size ≤ idBound)
include h

theorem frames_ofFormula : (ofFormula f).gates.map Gate.frame = Formula.frames 0 f.nodes := by
  unfold ofFormula addFormula
  rw [addFormulaAt_eq f (by simp [empty]) (by simpa [empty] using h)]
  exact f.map_frame_placed 0 _ _

theorem wellFormed_ofFormula : (ofFormula f).WellFormed :=
  WellFormed.empty.addFormulaAt (by simpa [empty] using h) _ _

/-- The longest path in the circuit of a formula has as many gates as the formula is high. -/
theorem isGreatest_path_ofFormula :
    IsGreatest {n | ∃ path, (ofFormula f).IsPath path ∧ path.length = n} f.height := by
  have hlongest : ∀ {k t}, f.nodes[k]? = some t →
      (ofFormula f).LongestFrom k (Formula.levelAt f.nodes k) :=
    longestFrom_node (wellFormed_ofFormula h) (frames_ofFormula h)
      fun _ _ => Formula.prefix_drop_nodes
  constructor
  · -- the path goes down from the outermost node
    have hroot := Formula.levelAt_add_one f.head_nodes
    obtain ⟨path, hpath, hlength⟩ := (hlongest f.head_nodes).1
    exact ⟨_, hpath, by rw [List.length_cons, hlength, hroot]⟩
  · rintro _ ⟨path, hpath, rfl⟩
    cases path with
    | nil => exact Nat.zero_le _
    | cons id path =>
      have hid := hpath.mem id List.mem_cons_self
      rw [ids_of_nodes (frames_ofFormula h), List.mem_range] at hid
      have ht := List.getElem?_eq_getElem hid
      have hlevel := Formula.levelAt_add_one ht
      have hlength : path.length ≤ Formula.levelAt f.nodes id :=
        (hlongest ht).2 ⟨path, hpath, rfl⟩
      have hheight := Formula.height_le_of_mem_nodes (List.getElem_mem hid)
      rw [List.length_cons]
      omega

theorem depth?_ofFormula : (ofFormula f).depth? = some (f.height - 1) := by
  obtain ⟨d, hd, hgreatest⟩ :=
    exists_depth (wellFormed_ofFormula h) (acyclic_of_frames (frames_ofFormula h))
  obtain ⟨⟨path, hpath, hlength⟩, hle⟩ := isGreatest_path_ofFormula h
  have hsame : IsGreatest {k | ∃ path, (ofFormula f).IsPath path ∧ path.length - 1 = k}
      (f.height - 1) := by
    refine ⟨⟨path, hpath, by rw [hlength]⟩, ?_⟩
    rintro _ ⟨path, hpath, rfl⟩
    exact Nat.sub_le_sub_right (hle ⟨path, hpath, rfl⟩) 1
  rw [hd, hgreatest.unique hsame]

end OfFormula

/-! ## The circuit of a text -/

/-- The longest path in the circuit of a text, of no more gates than there are identifiers, has as
many gates as the formula of the text is high, and the depth is the number of wires between them.
Under a limit above zero no path has more gates than the limit; under the limit zero the formula can
only be a letter. -/
theorem compile_depth {text : String} {limits : Limits} {c : Circuit}
    (h : compile text limits = .ok c) :
    ∃ f, Formula.parse text limits = .ok f ∧ c = ofFormula f ∧
      (f.height ≤ limits.depth ∨ limits.depth = 0 ∧ ∃ letter, f = .var letter) ∧
      (f.size ≤ idBound → ∃ d, c.statistics.depth? = some d ∧ d + 1 = f.height ∧
        IsGreatest {n | ∃ path, c.IsPath path ∧ path.length = n} (d + 1) ∧
        (limits.depth ≠ 0 → d + 1 ≤ limits.depth)) := by
  obtain ⟨f, hparse, rfl⟩ := map_eq_ok.mp h
  have hlimit := Formula.height_of_parse hparse
  refine ⟨f, hparse, rfl, hlimit, fun hsize => ?_⟩
  have hheight : f.height - 1 + 1 = f.height := Nat.sub_add_cancel f.height_pos
  refine ⟨f.height - 1, depth?_ofFormula hsize, hheight, ?_, fun hne => ?_⟩
  · rw [hheight]
    exact isGreatest_path_ofFormula hsize
  · rcases hlimit with hle | ⟨hzero, -⟩
    · omega
    · exact absurd hzero hne

theorem compile_depth_attained :
    ∃ c, compile "!(a+B)" ⟨3, 0⟩ = .ok c ∧ c.statistics.depth? = some 2 ∧
      IsGreatest {n | ∃ path, c.IsPath path ∧ path.length = n} 3 := by
  have hf : Formula.parse "!(a+B)" ⟨3, 0⟩ = .ok (.not (.binary .or (.var 'A') (.var 'B'))) :=
    eq_ok_of_toOption (by decide +kernel)
  have hc : compile "!(a+B)" ⟨3, 0⟩ =
      .ok (ofFormula (.not (.binary .or (.var 'A') (.var 'B')))) := by
    rw [compile, hf]
    rfl
  obtain ⟨f, hf', -, -, hdepth⟩ := compile_depth hc
  obtain rfl := Except.ok.inj (hf'.symm.trans hf)
  obtain ⟨d, hd, hheight, hpath, -⟩ := hdepth (by decide)
  obtain rfl : d = 2 := Nat.succ.inj hheight
  exact ⟨_, hc, hd, hpath⟩

/-- A letter is not refused, although its circuit has a gate and the limit is zero. -/
theorem not_compile_depth_le :
    ¬ ∀ (text : String) (limits : Limits) (c : Circuit), compile text limits = .ok c →
      ∃ d, c.statistics.depth? = some d ∧ d + 1 ≤ limits.depth := by
  intro h
  have hc : compile "A" ⟨0, 0⟩ = .ok (ofFormula (.var 'A')) := by
    have hf : Formula.parse "A" ⟨0, 0⟩ = .ok (.var 'A') := eq_ok_of_toOption (by decide +kernel)
    rw [compile, hf]
    rfl
  obtain ⟨d, -, hle⟩ := h "A" ⟨0, 0⟩ _ hc
  exact absurd hle (Nat.not_succ_le_zero d)

end Circuit

end LogicCircuit
