import LogicCircuit.Proofs.Circuit.Sorting
import LogicCircuit.Proofs.Evaluation.Locality
import LogicCircuit.Proofs.Netlist.Bench
import LogicCircuit.Proofs.Netlist.Writing

/-!
# Netlists say what circuits compute

The text of the netlist of a circuit is read as `Circuit.bench`, in which every gate defines a
signal. Each definition says of the signals what the equation of the gate says of the values, so
the only valuations that satisfy the netlist are the evaluations of the circuit.

Results:
* `read?_text`: what the text of a netlist says.
* `Gate.value?_source`: a definition gives the bit that the gate computes.
* `satisfiedBy_iff`: a valuation satisfies the netlist if it solves the equations of the gates.
* `exportsExactly`: what is written for a circuit, and what it says.
-/

namespace LogicCircuit

/-! ## Names of signals -/

theorem GateId.toList_text (id : GateId) : (text id).toList = 'x' :: Nat.toDigits 10 id := by
  have hstring : ∀ s : String, toString s = s := fun _ => rfl
  have hnat : toString id = Nat.repr id := rfl
  simp [text, hstring, hnat, Nat.toList_repr]

theorem GateId.text_injective : Function.Injective GateId.text := by
  intro a b h
  have hdigits := congrArg String.toList h
  rw [toList_text, toList_text, List.cons.injEq, ← Nat.toList_repr, ← Nat.toList_repr] at hdigits
  exact Nat.repr_injective (String.toList_injective hdigits.2)

theorem GateId.isName_text (id : GateId) : Bench.IsName (text id).toList := by
  rw [toList_text]
  refine ⟨List.cons_ne_nil _ _, fun c hc => ?_⟩
  rcases List.mem_cons.mp hc with rfl | hc
  · decide
  · have hdigit := Nat.isDigit_of_mem_toDigits (by decide) (by decide) hc
    simp [Bench.isNameChar, Char.isAlphanum, hdigit]

theorem Bench.toString_injective : Function.Injective Char.toString := by
  intro a b h
  have hlist := congrArg String.toList h
  simpa using hlist

theorem Bench.isName_letter {letter : Char} (h : letter.isAlpha = true) : IsName [letter] := by
  refine ⟨List.cons_ne_nil _ _, fun c hc => ?_⟩
  obtain rfl := List.mem_singleton.mp hc
  simp [isNameChar, Char.isAlphanum, h]

/-- The name of a gate is longer than a letter. -/
theorem GateId.text_ne_toString (id : GateId) (letter : Char) : text id ≠ letter.toString := by
  intro h
  have hlist := congrArg String.toList h
  rw [toList_text] at hlist
  simp [Nat.toDigits_ne_nil] at hlist

/-! ## Definitions -/

def Operator.function : Operator → Bench.Function
  | and => .and
  | nand => .nand
  | or => .or
  | nor => .nor
  | xor => .xor
  | xnor => .xnor

/-- What defines the signal of a gate in a netlist. -/
def Gate.source (g : Gate) : Bench.Source :=
  match g.kind with
  | .const false => .gnd
  | .const true => .vdd
  | .var letter => .call .buf [letter.toString]
  | .not => .call .not (g.inputs.map GateId.text)
  | .binary op => .call op.function (g.inputs.map GateId.text)

/-- What the netlist of a circuit says. -/
def Circuit.bench (c : Circuit) : Bench where
  inputs := c.letters.map Char.toString
  outputs := c.sinks.map GateId.text
  definitions := c.gates.map fun g => (GateId.text g.id, g.source)

/-- The slots of a gate without an empty slot. -/
theorem Gate.slots_eq {g : Gate} (h : none ∉ g.slots) : g.slots = g.inputs.map some := by
  unfold inputs
  generalize g.slots = slots at h ⊢
  induction slots with
  | nil => rfl
  | cons s slots ih =>
    rw [List.mem_cons, not_or] at h
    cases s with
    | none => exact absurd rfl h.1
    | some d => exact congrArg (some d :: ·) (ih h.2)

/-- What a gate without an empty slot looks like. -/
inductive Gate.Shape : GateKind → List GateId → Prop
  | const (bit : Bool) : Shape (.const bit) []
  | var (letter : Char) : Shape (.var letter) []
  | not (d : GateId) : Shape .not [d]
  | binary (op : Operator) (a b : GateId) : Shape (.binary op) [a, b]

theorem Gate.shape {g : Gate} (h : none ∉ g.slots) (harity : g.slots.length = g.kind.arity) :
    Shape g.kind g.inputs := by
  have hlength : g.inputs.length = g.kind.arity := by
    rw [← harity, slots_eq h, List.length_map]
  cases hk : g.kind with
  | const bit =>
    rw [hk] at hlength
    rw [List.length_eq_zero_iff.mp hlength]
    exact .const bit
  | var letter =>
    rw [hk] at hlength
    rw [List.length_eq_zero_iff.mp hlength]
    exact .var letter
  | not =>
    rw [hk] at hlength
    obtain ⟨d, hd⟩ := List.length_eq_one_iff.mp hlength
    rw [hd]
    exact .not d
  | binary op =>
    rw [hk] at hlength
    obtain ⟨a, b, hab⟩ := List.length_eq_two.mp hlength
    rw [hab]
    exact .binary op a b

theorem Operator.apply?_function (op : Operator) (x y : Bool) :
    op.function.apply? [x, y] = some (op.apply x y) := by
  cases op <;> cases x <;> cases y <;> rfl

/-- A definition gives the bit that the gate computes, if the letters have the bits of the
assignment. -/
theorem Gate.value?_source {g : Gate} (h : none ∉ g.slots)
    (harity : g.slots.length = g.kind.arity) {s : Assignment} {v : String → Bool}
    (hs : ∀ letter, g.kind = .var letter → s.get? letter = some (v letter.toString)) :
    ∃ b, g.source.value? v = some b ∧
      g.compute s (fun id => .known (v (GateId.text id))) = .known b := by
  have hshape := shape h harity
  have hslots := slots_eq h
  unfold source compute inputValue driver?
  rw [hslots]
  generalize hk : g.kind = kind at hshape
  generalize g.inputs = inputs at hshape
  cases hshape with
  | const bit => cases bit <;> exact ⟨_, rfl, rfl⟩
  | var letter =>
    refine ⟨v letter.toString, rfl, ?_⟩
    show Assignment.value s letter = _
    rw [Assignment.value, hs letter hk]
    rfl
  | not d => exact ⟨_, rfl, rfl⟩
  | binary op a b => exact ⟨_, op.apply?_function _ _, rfl⟩

/-! ## Lines -/

theorem Operator.function?_letters (op : Operator) :
    Bench.function? (String.ofList op.letters) = some op.function := by
  cases op <;> decide

theorem Operator.isName_letters (op : Operator) : Bench.IsName op.letters := by
  cases op <;> exact .of_all (by decide) (by decide)

namespace Netlist

/-- The right side of a definition holds neither an equals sign nor a line end, and says what
defines the signal. -/
structure Defines (text : String) (source : Bench.Source) : Prop where
  read : Bench.source? (Bench.compact text.toList) = some source
  equals : '=' ∉ Bench.compact text.toList
  newline : '\n' ∉ text.toList

theorem defines_call {text : String} {head : List Char} {args : List (List Char)}
    {function : Bench.Function} (ht : text.toList = Bench.callText [',', ' '] head args)
    (hh : Bench.IsName head) (hf : Bench.function? (String.ofList head) = some function)
    (ha : ∀ a ∈ args, Bench.IsName a) (hne : args ≠ []) :
    Defines text (.call function (args.map String.ofList)) := by
  have hcompact := Bench.compact_callText hh ha
  refine ⟨?_, ?_, ?_⟩
  · rw [ht, hcompact, Bench.source?_callText hh hf ha hne]
  · rw [ht, hcompact]
    exact Bench.notMem_callText hh ha
  · rw [ht]
    intro h
    rcases Bench.mem_callText h hh ha with h | h | h | h
    all_goals exact absurd h (by decide)

theorem toList_apply (name : String) (inputs : List GateId) :
    (definitionText (.apply name inputs)).toList =
      Bench.callText [',', ' '] name.toList (inputs.map fun d => (GateId.text d).toList) := by
  simp [definitionText, Bench.callText, String.toList_intercalate, Function.comp_def]

theorem defines_apply {head : List Char} {function : Bench.Function} {inputs : List GateId}
    (hh : Bench.IsName head) (hf : Bench.function? (String.ofList head) = some function)
    (hne : inputs ≠ []) :
    Defines (definitionText (.apply (String.ofList head) inputs))
      (.call function (inputs.map GateId.text)) := by
  have hnames : inputs.map GateId.text =
      (inputs.map fun d => (GateId.text d).toList).map String.ofList := by
    simp [Function.comp_def]
  rw [hnames]
  refine defines_call ?_ hh hf (fun a ha => ?_) (by simpa using hne)
  · rw [toList_apply, String.toList_ofList]
  · obtain ⟨d, -, rfl⟩ := List.mem_map.mp ha
    exact d.isName_text

theorem defines_buffer {letter : Char} (h : letter.isAlpha = true) :
    Defines (definitionText (.buffer letter)) (.call .buf [letter.toString]) := by
  have hstring : ∀ s : String, toString s = s := fun _ => rfl
  have hchar : toString letter = String.singleton letter := rfl
  have ht : (definitionText (.buffer letter)).toList =
      Bench.callText [',', ' '] ['B', 'U', 'F'] [[letter]] := by
    simp [definitionText, Bench.callText, hstring, hchar]
  refine defines_call ht (.of_all (by decide) (by decide)) (by decide) (fun a ha => ?_)
    (List.cons_ne_nil _ _)
  obtain rfl := List.mem_singleton.mp ha
  exact Bench.isName_letter h

/-- The definition of a gate is read as what defines its signal. -/
theorem defines_definition {g : Gate} (h : none ∉ g.slots)
    (harity : g.slots.length = g.kind.arity)
    (ha : ∀ letter, g.kind = .var letter → letter.isAlpha = true) :
    Defines (definitionText g.definition) g.source := by
  have hshape := g.shape h harity
  unfold Gate.definition Gate.source
  generalize hk : g.kind = kind at hshape
  generalize g.inputs = inputs at hshape
  cases hshape with
  | const bit => cases bit <;> exact ⟨by decide, by decide, by decide⟩
  | var letter => exact defines_buffer (ha letter hk)
  | not d =>
    exact defines_apply (.of_all (by decide) (by decide)) (by decide) (List.cons_ne_nil _ _)
  | binary op a b =>
    exact defines_apply op.isName_letters op.function?_letters (List.cons_ne_nil _ _)

end Netlist

/-! ## The text of a netlist -/

namespace Circuit

variable {c : Circuit}

theorem newline_notMem_declaration {head name : List Char} (hh : Bench.IsName head)
    (hn : Bench.IsName name) : '\n' ∉ Bench.callText [',', ' '] head [name] := by
  intro h
  rcases Bench.mem_callText h hh (fun a ha => List.mem_singleton.mp ha ▸ hn) with h | h | h | h
  all_goals exact absurd h (by decide)

theorem reads_inputs (ha : ∀ l ∈ c.letters, l.isAlpha = true) :
    Bench.Reads (c.letters.map fun letter => s!"INPUT({letter})")
      (c.letters.map fun letter => .input letter.toString) := by
  refine Bench.Reads.map fun letter hl => ?_
  have hn := Bench.isName_letter (ha letter hl)
  have hh : Bench.IsName ['I', 'N', 'P', 'U', 'T'] := .of_all (by decide) (by decide)
  have hstring : ∀ s : String, toString s = s := fun _ => rfl
  have hchar : toString letter = String.singleton letter := rfl
  have ht : (s!"INPUT({letter})").toList =
      Bench.callText [',', ' '] ['I', 'N', 'P', 'U', 'T'] [[letter]] := by
    simp [Bench.callText, hstring, hchar]
  rw [ht]
  exact ⟨newline_notMem_declaration hh hn, Bench.line?_declaration hh hn rfl⟩

theorem reads_outputs (c : Circuit) :
    Bench.Reads (c.sinks.map fun id => s!"OUTPUT({GateId.text id})")
      (c.sinks.map fun id => .output (GateId.text id)) := by
  refine Bench.Reads.map fun id _ => ?_
  have hn := id.isName_text
  have hh : Bench.IsName ['O', 'U', 'T', 'P', 'U', 'T'] := .of_all (by decide) (by decide)
  have hstring : ∀ s : String, toString s = s := fun _ => rfl
  have ht : (s!"OUTPUT({GateId.text id})").toList =
      Bench.callText [',', ' '] ['O', 'U', 'T', 'P', 'U', 'T'] [(GateId.text id).toList] := by
    simp [Bench.callText, hstring]
  rw [ht]
  refine ⟨newline_notMem_declaration hh hn, Bench.line?_declaration hh hn ?_⟩
  rw [String.ofList_toList]
  rfl

theorem reads_definitions (hc : c.WellFormed) (ha : ∀ l ∈ c.letters, l.isAlpha = true)
    (hfull : ∀ g ∈ c.gates, none ∉ g.slots) :
    Bench.Reads
      (c.gates.map fun g => s!"{GateId.text g.id} = {Netlist.definitionText g.definition}")
      (c.gates.map fun g => .define (GateId.text g.id) g.source) := by
  refine Bench.Reads.map fun g hg => ?_
  have hn := g.id.isName_text
  have hd := Netlist.defines_definition (hfull g hg) (hc.arity g hg) fun letter hk =>
    ha letter (mem_letters.mpr ⟨g, hg, hk⟩)
  have hstring : ∀ s : String, toString s = s := fun _ => rfl
  have ht : (s!"{GateId.text g.id} = {Netlist.definitionText g.definition}").toList =
      (GateId.text g.id).toList ++ [' ', '=', ' '] ++
        (Netlist.definitionText g.definition).toList := by
    simp [hstring]
  rw [ht]
  constructor
  · simp only [List.mem_append, not_or]
    exact ⟨⟨hn.notMem (by decide), by decide⟩, hd.newline⟩
  · rw [Bench.line?_definition hn hd.read hd.equals, String.ofList_toList]

/-- What the text of a netlist says. -/
theorem read?_text (hc : c.WellFormed) (ha : ∀ l ∈ c.letters, l.isAlpha = true)
    (hfull : ∀ g ∈ c.gates, none ∉ g.slots) : Bench.read? c.toNetlist.text = some c.bench := by
  have hcomments : Bench.Reads ["# .bench (ISCAS) file", "# Generated by boolcirc"] [] :=
    ⟨by decide, [[], []], by decide, rfl⟩
  have hblank : Bench.Reads [""] [] := ⟨by decide, [[]], by decide, rfl⟩
  have hreads := ((((hcomments.append (reads_inputs ha)).append hblank).append
    c.reads_outputs).append hblank).append (reads_definitions hc ha hfull)
  have htext : c.toNetlist.text = Text.unlines
      (["# .bench (ISCAS) file", "# Generated by boolcirc"] ++
        (c.letters.map fun letter => s!"INPUT({letter})") ++ [""] ++
        (c.sinks.map fun id => s!"OUTPUT({GateId.text id})") ++ [""] ++
        c.gates.map fun g => s!"{GateId.text g.id} = {Netlist.definitionText g.definition}") := by
    unfold Netlist.text Netlist.lines toNetlist
    rw [List.map_map]
    rfl
  rw [htext, hreads.read?]
  simp [Bench.ofStatements, bench, List.filterMap_append, List.filterMap_map,
    Bench.Statement.input?, Bench.Statement.output?, Bench.Statement.definition?, Function.comp_def]

/-! ## Valuations -/

/-- The valuation that takes the letters from an assignment, and the gates from their values. -/
noncomputable def valuation (s : Assignment) (value : GateId → Value) : String → Bool :=
  Function.extend GateId.text (fun id => (value id).bit?.getD false)
    (Function.extend Char.toString (fun letter => (s.get? letter).getD false) fun _ => false)

theorem valuation_text {s : Assignment} {value : GateId → Value} {id : GateId} {b : Bool}
    (h : value id = .known b) : valuation s value (GateId.text id) = b := by
  rw [valuation, GateId.text_injective.extend_apply, h]
  rfl

theorem valuation_toString {s : Assignment} {value : GateId → Value} {letter : Char}
    (h : (s.get? letter).isSome = true) :
    s.get? letter = some (valuation s value letter.toString) := by
  obtain ⟨b, hb⟩ := Option.isSome_iff_exists.mp h
  have hno : ¬ ∃ id, GateId.text id = letter.toString := fun ⟨id, he⟩ =>
    id.text_ne_toString letter he
  rw [valuation, Function.extend_apply' _ _ _ hno, Bench.toString_injective.extend_apply, hb]
  rfl

section Meaning

variable {s : Assignment} (hc : c.WellFormed) (hfull : ∀ g ∈ c.gates, none ∉ g.slots)
include hc hfull

/-- A valuation satisfies the netlist of a circuit if it solves the equations of the gates. -/
theorem satisfiedBy_iff {v : String → Bool}
    (hv : ∀ letter ∈ c.letters, s.get? letter = some (v letter.toString)) :
    c.bench.SatisfiedBy v ↔ ∀ g ∈ c.gates, g.Equation s fun id => .known (v (GateId.text id)) := by
  unfold Bench.SatisfiedBy bench
  rw [List.forall_mem_map]
  refine forall₂_congr fun g hg => ?_
  obtain ⟨b, hsource, hcompute⟩ := Gate.value?_source (hfull g hg) (hc.arity g hg)
    fun letter hk => hv letter (mem_letters.mpr ⟨g, hg, hk⟩)
  rw [Gate.equation_iff, hcompute]
  simp only [hsource, Option.some.injEq, Value.known.injEq]
  exact eq_comm

/-- Where the equations are solved, every gate carries the bit that the valuation gives to it. -/
theorem value_eq_valuation {value : GateId → Value} {done : List Gate} (h : c.Scheduled done)
    (hs : ∀ letter ∈ c.letters, (s.get? letter).isSome = true)
    (heq : ∀ g ∈ c.gates, g.Equation s value) :
    ∀ g ∈ done, value g.id = .known (valuation s value (GateId.text g.id)) := by
  induction h with
  | nil => simp
  | @snoc done g h hg _ hin ih =>
    intro a ha
    rcases List.mem_append.mp ha with ha | ha
    · exact ih a ha
    · obtain rfl := List.mem_singleton.mp ha
      obtain ⟨b, -, hcompute⟩ := Gate.value?_source (hfull a hg) (hc.arity a hg)
        fun letter hk => valuation_toString (hs letter (mem_letters.mpr ⟨a, hg, hk⟩))
      have hvalue : value a.id = .known b := by
        rw [Gate.equation_iff.mp (heq a hg), ← hcompute]
        refine Gate.compute_congr fun d hd => ?_
        obtain ⟨a', ha', rfl⟩ := List.mem_map.mp (hin d hd)
        exact ih a' ha'
      rw [valuation_text hvalue, hvalue]

/-- Under a total assignment the netlist has a valuation, and every valuation of it gives the gates
the values of the evaluation. -/
theorem bench_meaning (ha : c.Acyclic) (hs : ∀ letter ∈ c.letters, (s.get? letter).isSome = true) :
    ∃ e, c.evaluate s = .ok e ∧
      (∃ v, c.bench.SatisfiedBy v ∧
        ∀ letter ∈ c.letters, s.get? letter = some (v letter.toString)) ∧
      ∀ v, c.bench.SatisfiedBy v →
        (∀ letter ∈ c.letters, s.get? letter = some (v letter.toString)) →
          ∀ id ∈ c.ids, e.value id = .known (v (GateId.text id)) := by
  obtain ⟨gates, hplan⟩ := exists_plan hc ha
  obtain ⟨hscheduled, hall⟩ := plan_spec hc hplan
  have hexact := evaluateAlong_exact hc hplan s
  have heval : c.evaluate s = .ok (c.evaluateAlong gates s) := by
    rw [evaluate, hplan]
    rfl
  generalize c.evaluateAlong gates s = e at hexact heval
  have hvalue : ∀ id ∈ c.ids, e.value id = .known (valuation s e.value (GateId.text id)) := by
    intro id hid
    obtain ⟨g, hg, rfl⟩ := List.mem_map.mp ((hall id).mpr hid)
    exact value_eq_valuation hc hfull hscheduled hs hexact.solves g hg
  have hv : ∀ letter ∈ c.letters, s.get? letter = some (valuation s e.value letter.toString) :=
    fun letter hl => valuation_toString (hs letter hl)
  refine ⟨e, heval, ⟨_, (satisfiedBy_iff hc hfull hv).mpr fun g hg => ?_, hv⟩,
    fun v hsat hv id hid => ?_⟩
  · rw [Gate.equation_iff, ← hvalue g.id (mem_ids_of_mem hg),
      Gate.equation_iff.mp (hexact.solves g hg)]
    exact Gate.compute_congr fun d hd => hvalue d (hc.input_mem hg hd)
  · exact (hexact.only _ ((satisfiedBy_iff hc hfull hv).mp hsat) id hid).symm

end Meaning

/-! ## The signals of a netlist -/

theorem map_fst_bench (c : Circuit) : c.bench.definitions.map (·.1) = c.ids.map GateId.text := by
  unfold bench ids
  rw [List.map_map, List.map_map]
  rfl

theorem nodup_signals (hc : c.WellFormed) : c.bench.signals.Nodup := by
  unfold Bench.signals
  rw [map_fst_bench, List.nodup_append]
  refine ⟨c.nodup_letters.map Bench.toString_injective, hc.nodup_ids.map GateId.text_injective, ?_⟩
  rintro _ hl _ hid rfl
  obtain ⟨letter, -, hletter⟩ := List.mem_map.mp hl
  obtain ⟨id, -, hid⟩ := List.mem_map.mp hid
  exact id.text_ne_toString letter (hid.trans hletter.symm)

theorem text_mem_signals {id : GateId} (h : id ∈ c.ids) : GateId.text id ∈ c.bench.signals := by
  unfold Bench.signals
  rw [map_fst_bench]
  exact List.mem_append_right _ (List.mem_map_of_mem h)

theorem args_mem_signals (hc : c.WellFormed) :
    ∀ d ∈ c.bench.definitions, ∀ name ∈ d.2.args, name ∈ c.bench.signals := by
  intro d hd name hname
  obtain ⟨g, hg, rfl⟩ := List.mem_map.mp hd
  have hinputs : ∀ name ∈ g.inputs.map GateId.text, name ∈ c.bench.signals := by
    intro name hname
    obtain ⟨d, hd, rfl⟩ := List.mem_map.mp hname
    exact text_mem_signals (hc.input_mem hg hd)
  change name ∈ g.source.args at hname
  unfold Gate.source at hname
  cases hk : g.kind with
  | const bit => cases bit <;> simp [hk, Bench.Source.args] at hname
  | var letter =>
    rw [hk] at hname
    obtain rfl := List.mem_singleton.mp hname
    exact List.mem_append_left _ (List.mem_map_of_mem (mem_letters.mpr ⟨g, hg, hk⟩))
  | not => exact hinputs name (by rwa [hk] at hname)
  | binary op => exact hinputs name (by rwa [hk] at hname)

/-! ## Exporting -/

/-- What a netlist says that stands for the circuit. -/
structure StandsFor (b : Bench) (c : Circuit) : Prop where
  inputs : b.inputs = c.registry.letters.map Char.toString
  outputs : b.outputs = c.sinks.map GateId.text
  /-- Every gate defines a signal. -/
  gates : b.definitions.map (·.1) = c.ids.map GateId.text
  /-- No signal is defined twice, and none has the name of an input. -/
  once : b.signals.Nodup
  closed : (∀ d ∈ b.definitions, ∀ name ∈ d.2.args, name ∈ b.signals) ∧
    ∀ name ∈ b.outputs, name ∈ b.signals
  /-- When every input has a bit, the signals can have bits under which all definitions hold, and
  in no other way than that the outputs have the values of the evaluation. -/
  meaning : ∀ s : Assignment, (∀ letter ∈ c.registry.letters, (s.get? letter).isSome = true) →
    ∃ e, c.evaluate s = .ok e ∧
      (∃ v, b.SatisfiedBy v ∧
        ∀ letter ∈ c.registry.letters, s.get? letter = some (v letter.toString)) ∧
      ∀ v, b.SatisfiedBy v →
        (∀ letter ∈ c.registry.letters, s.get? letter = some (v letter.toString)) →
          ∀ id ∈ c.sinks, e.value id = .known (v (GateId.text id))

/-- What writing the netlist of a circuit comes to. -/
structure ExportsExactly (c : Circuit) : Prop where
  /-- The first empty slot of the first gate that has one is reported, and nothing is written. -/
  openSlot : (∃ g ∈ c.gates, none ∈ g.slots) → ∃ g slot, c.FirstOpen g slot ∧
    ∀ written, c.writeNetlist.runOn written = (.error (.openSlot g.id slot), written)
  /-- Otherwise a loop is reported, and nothing is written. -/
  loop : (∀ g ∈ c.gates, none ∉ g.slots) → ¬ c.Acyclic → ∃ e,
    ∀ written, c.writeNetlist.runOn written = (.error (.loop e), written)
  /-- Otherwise a text is written that stands for the circuit. -/
  written : (∀ g ∈ c.gates, none ∉ g.slots) → c.Acyclic → ∃ text b,
    (∀ written, c.writeNetlist.runOn written = (.ok (), written ++ text.toUTF8)) ∧
    Bench.read? text = some b ∧ c.StandsFor b

theorem standsFor_bench (hc : c.WellFormed) (hfull : ∀ g ∈ c.gates, none ∉ g.slots)
    (ha : c.Acyclic) : c.StandsFor c.bench := by
  refine ⟨by rw [letters_registry]; rfl, rfl, c.map_fst_bench, nodup_signals hc,
    ⟨args_mem_signals hc, fun name hname => ?_⟩, fun s hs => ?_⟩
  · obtain ⟨id, hid, rfl⟩ := List.mem_map.mp hname
    exact text_mem_signals (mem_sinks.mp hid).1
  · simp only [letters_registry] at hs ⊢
    obtain ⟨e, he, hexists, hall⟩ := bench_meaning hc hfull ha hs
    exact ⟨e, he, hexists, fun v hsat hv id hid => hall v hsat hv id (mem_sinks.mp hid).1⟩

/-- A circuit over letters of the alphabet is written as a netlist that computes what it computes,
or not written at all. -/
theorem exportsExactly (hc : c.WellFormed) (hl : ∀ l ∈ c.registry.letters, l.isAlpha = true) :
    c.ExportsExactly := by
  rw [letters_registry] at hl
  refine ⟨fun hopen => ?_, fun hfull ha => ?_, fun hfull ha => ?_⟩
  · cases hslot : c.openSlot? with
    | none =>
      obtain ⟨g, hg, hnone⟩ := hopen
      exact absurd hnone (openSlot?_eq_none.mp hslot g hg)
    | some p =>
      obtain ⟨id, slot⟩ := p
      obtain ⟨g, hfirst, rfl⟩ := openSlot?_eq_some hc hslot
      refine ⟨g, slot, hfirst, fun written => ?_⟩
      rw [writeNetlist_eq, netlist, hslot]
  · have hslot := openSlot?_eq_none.mpr hfull
    cases hcheck : c.checkAcyclic with
    | ok _ => exact absurd ((checkAcyclic_eq_ok hc).mp hcheck) ha
    | error e =>
      refine ⟨e, fun written => ?_⟩
      rw [writeNetlist_eq, netlist, hslot, hcheck]
  · have hslot := openSlot?_eq_none.mpr hfull
    have hcheck := (checkAcyclic_eq_ok hc).mpr ha
    refine ⟨c.toNetlist.text, c.bench, fun written => ?_, read?_text hc hl hfull,
      standsFor_bench hc hfull ha⟩
    rw [writeNetlist_eq, netlist, hslot, hcheck]
    rfl

/-- A letter and a constant drive a gate; the same letter and another one are outputs. -/
def lettersAsOutputs : Circuit :=
  [Edit.addGate (.var 'a') {}, .addGate (.var 'A') {}, .addGate (.const true) {},
    .addGate (.binary .nand) {}, .addGate (.var 'b') {}, .connect 1 3 1,
    .connect 2 3 0].foldl Edit.apply empty

theorem exportsExactly_outputs_open_and_ring :
    (lettersAsOutputs.ExportsExactly ∧ ∃ text b,
      (∀ written, lettersAsOutputs.writeNetlist.runOn written =
        (.ok (), written ++ String.toUTF8 text)) ∧
      Bench.read? text = some b ∧ lettersAsOutputs.StandsFor b) ∧
    (sharedInput.ExportsExactly ∧ ∃ g slot, sharedInput.FirstOpen g slot ∧
      ∀ written, sharedInput.writeNetlist.runOn written =
        (.error (.openSlot g.id slot), written)) ∧
    ringBeside.ExportsExactly ∧
      ∃ e, ∀ written, ringBeside.writeNetlist.runOn written = (.error (.loop e), written) := by
  have hl : lettersAsOutputs.Reachable := Reachable.empty.edits
    ⟨(by decide : 0 < idBound), (by decide : 1 < idBound), (by decide : 2 < idBound),
      (by decide : 3 < idBound), (by decide : 4 < idBound), trivial, trivial, trivial⟩
  have hs : sharedInput.Reachable := Reachable.empty.edits
    ⟨(by decide : 0 < idBound), (by decide : 1 < idBound), (by decide : 2 < idBound), trivial,
      trivial, trivial, trivial⟩
  have hr : ringBeside.Reachable := Reachable.empty.edits
    ⟨(by decide : 0 < idBound), (by decide : 1 < idBound), (by decide : 2 < idBound), trivial,
      trivial, trivial⟩
  have hle := exportsExactly hl.wellFormed (List.all_eq_true.mp (by decide))
  have hse := exportsExactly hs.wellFormed (List.all_eq_true.mp (by decide))
  have hre := exportsExactly hr.wellFormed (List.all_eq_true.mp (by decide))
  have hplan : lettersAsOutputs.plan = .ok lettersAsOutputs.gates := by decide
  have hra : ¬ ringBeside.Acyclic := by
    intro h
    refine h 0 (.tail (b := 1) (.single ?_) ?_)
    · exact ⟨_, List.mem_cons_self, rfl, by decide⟩
    · exact ⟨_, List.mem_cons_of_mem _ List.mem_cons_self, rfl, by decide⟩
  exact ⟨⟨hle, hle.written (by decide) (acyclic_of_plan hl.wellFormed hplan)⟩,
    ⟨hse, hse.openSlot (by decide)⟩, hre, hre.loop (by decide) hra⟩

end Circuit

end LogicCircuit
