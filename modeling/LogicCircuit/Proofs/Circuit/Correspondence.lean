import LogicCircuit.Proofs.Circuit.Counting
import LogicCircuit.Proofs.Circuit.Inputs
import LogicCircuit.Proofs.Evaluation.Renaming

/-!
# Letters and gates correspond

The registry lists the letters with their gates, setting a letter goes through all gates, and so
does reading the letters back. Each of these looks for letters by itself. They find the same gates
as long as all letters are stored as capitals, and that is so in every circuit that arises.

Results:
* `foldl_register`: one pass over the gates collects the registry.
* `pairwise_letters`: the letters are in the order of their first gates.
* `setInput_eq`, `setLetter_eq`: what setting a letter changes, and how many gates it counts.
* `foldl_setInput`: setting some letters one by one, in any order.
* `inputAssignment_setInputs`: what is read back after all letters have been set.
* `letters_correspond`: all of that about the circuits that arise.
-/

namespace LogicCircuit

namespace Assignment

/-- The letters of a list that are assigned, with their bits. -/
def entriesFor (s : Assignment) (ls : List Char) : List (Char × Bool) :=
  ls.filterMap fun l => (s.get? l).map (l, ·)

theorem mem_entriesFor {s : Assignment} {ls : List Char} {e : Char × Bool} :
    e ∈ s.entriesFor ls ↔ e.1 ∈ ls ∧ s.get? e.1 = some e.2 := by
  obtain ⟨letter, bit⟩ := e
  simp only [entriesFor, List.mem_filterMap, Option.map_eq_some_iff, Prod.mk.injEq]
  constructor
  · rintro ⟨l, hl, b, hb, rfl, rfl⟩
    exact ⟨hl, hb⟩
  · rintro ⟨hl, hb⟩
    exact ⟨letter, hl, bit, hb, rfl, rfl⟩

end Assignment

theorem GateKind.letter?_eq_some {k : GateKind} {letter : Char} :
    k.letter? = some letter ↔ k = .var letter := by
  cases k <;> simp [letter?]

namespace Circuit

variable {c : Circuit}

/-! ## The registry -/

theorem mem_gatesOf {letter : Char} {id : GateId} :
    id ∈ c.gatesOf letter ↔ ∃ g ∈ c.gates, g.id = id ∧ g.kind = .var letter := by
  simp only [gatesOf, List.mem_map, List.mem_filter, decide_eq_true_eq, GateKind.letter?_eq_some]
  constructor
  · rintro ⟨g, ⟨hg, hk⟩, hid⟩
    exact ⟨g, hg, hid, hk⟩
  · rintro ⟨g, hg, hid, hk⟩
    exact ⟨g, ⟨hg, hk⟩, hid⟩

theorem WellFormed.ascending_gatesOf (hc : c.WellFormed) (letter : Char) :
    (c.gatesOf letter).Pairwise (· < ·) :=
  hc.ascending.sublist (List.filter_sublist.map _)

theorem gatesOf_ne_nil {letter : Char} (h : letter ∈ c.letters) : c.gatesOf letter ≠ [] := by
  obtain ⟨g, hg, hk⟩ := mem_letters.mp h
  exact List.ne_nil_of_mem (mem_gatesOf.mpr ⟨g, hg, rfl, hk⟩)

theorem mem_entries {e : Char × List GateId} :
    e ∈ c.registry.entries ↔ e.1 ∈ c.letters ∧ e.2 = c.gatesOf e.1 := by
  obtain ⟨letter, ids⟩ := e
  simp only [registry, List.mem_map, Prod.mk.injEq]
  constructor
  · rintro ⟨l, hl, rfl, rfl⟩
    exact ⟨hl, rfl⟩
  · rintro ⟨hl, hids⟩
    exact ⟨letter, hl, rfl, hids.symm⟩

/-- The registry gives the gates of a letter in either case. -/
theorem gates_registry (c : Circuit) (letter : Char) :
    c.registry.gates letter = c.gatesOf letter.toUpper := by
  unfold Registry.gates registry
  rw [lookup_map_pair]
  split_ifs with h
  · rfl
  · refine (List.eq_nil_iff_forall_not_mem.mpr fun id hid => h ?_).symm
    obtain ⟨g, hg, -, hk⟩ := mem_gatesOf.mp hid
    exact mem_letters.mpr ⟨g, hg, hk⟩

/-! ## The registry in one pass -/

/-- The entries of a registry with one more gate of a letter, in a new entry at the end if the
letter has none. -/
def addEntry (letter : Char) (id : GateId) : List (Char × List GateId) → List (Char × List GateId)
  | [] => [(letter, [id])]
  | e :: rest => if e.1 = letter then (e.1, e.2 ++ [id]) :: rest else e :: addEntry letter id rest

/-- The entries of a registry with one more gate, if it stands for a letter. -/
def register (entries : List (Char × List GateId)) (g : Gate) : List (Char × List GateId) :=
  match g.kind.letter? with
  | some letter => addEntry letter g.id entries
  | none => entries

theorem addEntry_map {ls : List Char} (hn : ls.Nodup) {f h : Char → List GateId} {letter : Char}
    {id : GateId} (hletter : h letter = f letter ++ [id]) (hnew : letter ∉ ls → f letter = [])
    (hother : ∀ l, l ≠ letter → h l = f l) :
    addEntry letter id (ls.map fun l => (l, f l)) =
      (if letter ∈ ls then ls else ls ++ [letter]).map fun l => (l, h l) := by
  induction ls with
  | nil => simp [addEntry, hletter, hnew]
  | cons l ls ih =>
    obtain ⟨hl, hn⟩ := List.nodup_cons.mp hn
    rw [List.map_cons, addEntry]
    by_cases he : l = letter
    · subst he
      have hrest : (ls.map fun l => (l, f l)) = ls.map fun l => (l, h l) :=
        List.map_congr_left fun k hk => by rw [hother k fun hkl => hl (hkl ▸ hk)]
      simp [hletter, hrest]
    · have hmem : letter ∈ l :: ls ↔ letter ∈ ls := by simp [Ne.symm he]
      rw [if_neg he, ih hn fun hno => hnew (mt hmem.mp hno)]
      simp only [hmem]
      split_ifs <;> simp [hother l he]

theorem eraseDups_concat {α : Type} [DecidableEq α] (l : List α) (a : α) :
    (l ++ [a]).eraseDups = if a ∈ l.eraseDups then l.eraseDups else l.eraseDups ++ [a] := by
  rw [List.eraseDups_append]
  by_cases h : a ∈ l
  · simp [List.removeAll, h]
  · simp [List.removeAll, h, List.eraseDups_cons]

/-- One pass over the gates collects the registry. -/
theorem foldl_register (c : Circuit) : c.gates.foldl register [] = c.registry.entries := by
  obtain ⟨gates, wires, nextId⟩ := c
  induction gates using List.reverseRecOn with
  | nil => rfl
  | append_singleton gates g ih =>
    rw [List.foldl_append, ih, List.foldl_cons, List.foldl_nil, register]
    simp only [registry, letters, gatesOf, List.filterMap_append, List.filter_append,
      List.map_append]
    cases hk : g.kind.letter? with
    | none => simp [hk]
    | some letter =>
      have hone : [g].filterMap (·.kind.letter?) = [letter] := by simp [hk]
      rw [hone, eraseDups_concat]
      refine addEntry_map (nodup_eraseDups _) (by simp [hk]) (fun hno => ?_)
        fun l hl => by simp [hk, Ne.symm hl]
      rw [List.mem_eraseDups, List.mem_filterMap] at hno
      rw [List.map_eq_nil_iff, List.filter_eq_nil_iff]
      exact fun a ha hak => hno ⟨a, ha, of_decide_eq_true hak⟩

/-! ## The order of letters -/

/-- Some gate of the first letter comes before all gates of the second one. -/
def Precedes (gates : List Gate) (a b : Char) : Prop :=
  ∃ g ∈ gates, g.kind = .var a ∧ ∀ h ∈ gates, h.kind = .var b → g.id < h.id

theorem Precedes.cons {gates : List Gate} {a b : Char} (h : Precedes gates a b) {g : Gate}
    (hg : g.kind ≠ .var b) : Precedes (g :: gates) a b := by
  obtain ⟨first, hfirst, hk, hlt⟩ := h
  refine ⟨first, List.mem_cons_of_mem g hfirst, hk, fun h hh hkb => ?_⟩
  rcases List.mem_cons.mp hh with rfl | hh
  · exact absurd hkb hg
  · exact hlt h hh hkb

theorem pairwise_letters {gates : List Gate} (h : (gates.map (·.id)).Pairwise (· < ·)) :
    (gates.filterMap (·.kind.letter?)).eraseDups.Pairwise (Precedes gates) := by
  induction gates with
  | nil => exact .nil
  | cons g gates ih =>
    obtain ⟨hg, hrest⟩ := List.pairwise_cons.mp h
    rw [List.filterMap_cons]
    cases hk : g.kind.letter? with
    | none =>
      refine (ih hrest).imp fun {a b} hab => hab.cons fun hkb => ?_
      rw [hkb] at hk
      cases hk
    | some letter =>
      rw [GateKind.letter?_eq_some] at hk
      simp only
      rw [List.eraseDups_cons, eraseDups_filter]
      have hne : ∀ b ∈ (gates.filterMap (·.kind.letter?)).eraseDups.filter (fun b => !b == letter),
          g.kind ≠ .var b := by
        intro b hb
        rw [hk]
        rintro ⟨⟩
        simpa using (List.mem_filter.mp hb).2
      refine List.pairwise_cons.mpr ⟨fun b hb => ?_, ?_⟩
      · refine ⟨g, List.mem_cons_self, hk, fun h hh hkb => ?_⟩
        rcases List.mem_cons.mp hh with rfl | hh
        · exact absurd hkb (hne b hb)
        · exact hg h.id (List.mem_map_of_mem hh)
      · exact ((ih hrest).sublist List.filter_sublist).imp_of_mem fun _ hb hab =>
          hab.cons (hne _ hb)

/-! ## Setting letters -/

/-- Set the gates of a letter, in either case, one after the other, and count them. -/
def setLetter (letter : Char) (value : Value) : List Gate → List Gate × Nat
  | [] => ([], 0)
  | g :: rest =>
    let (rest, count) := setLetter letter value rest
    if g.kind = .var letter.toUpper then ({ g with value } :: rest, count + 1)
    else (g :: rest, count)

theorem setInput_eq_mapGates (c : Circuit) (letter : Char) (value : Value) :
    c.setInput letter value =
      c.mapGates fun g => if g.kind = .var letter.toUpper then { g with value } else g := by
  unfold setInput mapInputs
  refine congrArg _ (funext fun g => ?_)
  obtain ⟨id, kind, slots, old, active, position⟩ := g
  cases kind with
  | var l => by_cases hl : l = letter.toUpper <;> simp [hl]
  | const b => simp
  | not => simp
  | binary op => simp

/-- The gates that are looked through by their kind are those of the registry. -/
theorem inputGates_eq (c : Circuit) (letter : Char) :
    c.inputGates letter = c.registry.gates letter := by
  rw [gates_registry, inputGates, gatesOf]
  congr 1
  simp only [GateKind.letter?_eq_some]

/-- As many gates are set as the registry lists. -/
theorem setLetter_eq (c : Circuit) (letter : Char) (value : Value) :
    setLetter letter value c.gates =
      ((c.setInput letter value).gates, (c.registry.gates letter).length) := by
  rw [← inputGates_eq, inputGates, List.length_map, setInput_eq_mapGates, mapGates]
  induction c.gates with
  | nil => rfl
  | cons g gates ih =>
    rw [setLetter, ih]
    by_cases hk : g.kind = .var letter.toUpper
    · simp [hk]
    · simp [hk]

/-- The gates that are set are those of the registry. -/
theorem WellFormed.setInput_eq (hc : c.WellFormed) (letter : Char) (value : Value) :
    c.setInput letter value =
      c.mapGates fun g => if g.id ∈ c.registry.gates letter then { g with value } else g := by
  rw [setInput_eq_mapGates, gates_registry]
  unfold mapGates
  congr 1
  refine List.map_congr_left fun g hg => ?_
  have hmem : g.id ∈ c.gatesOf letter.toUpper ↔ g.kind = .var letter.toUpper := by
    rw [mem_gatesOf]
    constructor
    · rintro ⟨g', hg', hid, hk⟩
      exact hc.eq_of_id_eq hg' hg hid ▸ hk
    · exact fun hk => ⟨g, hg, rfl, hk⟩
  simp only [hmem]

theorem mapInputs_mapInputs (c : Circuit) (f h : Char → Value → Value) :
    (c.mapInputs f).mapInputs h = c.mapInputs fun l v => h l (f l v) := by
  unfold mapInputs mapGates
  simp only [List.map_map]
  congr 1
  refine List.map_congr_left fun g _ => ?_
  simp only [Function.comp_apply]
  cases hk : g.kind <;> simp [hk]

theorem mapInputs_congr {f h : Char → Value → Value}
    (hfh : ∀ l ∈ c.letters, ∀ v, f l v = h l v) : c.mapInputs f = c.mapInputs h := by
  unfold mapInputs mapGates
  congr 1
  refine List.map_congr_left fun g hg => ?_
  cases hk : g.kind with
  | var l => simp only [hfh l (mem_letters.mpr ⟨g, hg, hk⟩)]
  | const b => rfl
  | not => rfl
  | binary op => rfl

theorem mapInputs_self (c : Circuit) : (c.mapInputs fun _ v => v) = c := by
  obtain ⟨gates, wires, nextId⟩ := c
  simp only [mapInputs, mapGates, Circuit.mk.injEq, and_true]
  refine (List.map_congr_left fun g _ => ?_).trans gates.map_id
  split <;> rfl

/-- Setting some letters one by one sets each of them, whatever the order. -/
theorem foldl_setInput {ls : List Char} (hls : ∀ l ∈ ls, l.toUpper = l) (value : Char → Value)
    (c : Circuit) : ls.foldl (fun d l => d.setInput l (value l)) c =
      c.mapInputs fun l v => if l ∈ ls then value l else v := by
  induction ls generalizing c with
  | nil => simpa using c.mapInputs_self.symm
  | cons l ls ih =>
    obtain ⟨hl, hls⟩ := List.forall_mem_cons.mp hls
    rw [List.foldl_cons, ih hls, setInput, mapInputs_mapInputs, hl]
    refine mapInputs_congr fun k _ v => ?_
    by_cases hk : k ∈ ls
    · simp [hk]
    · by_cases hkl : k = l
      · simp [hkl]
      · simp [hk, hkl]

/-! ## Reading letters back -/

/-- A gate whose letter carries what an assignment gives it adds the letter to those that have been
read back, unless it is one of them. -/
theorem readInput_eq {s t : Assignment} {ls : List Char} (ht : t.entries = s.entriesFor ls)
    {g : Gate} {letter : Char} (hk : g.kind = .var letter) (hupper : letter.toUpper = letter)
    (hv : g.value = s.value letter) :
    (readInput t g).entries =
      s.entriesFor (if letter ∈ ls then ls else ls ++ [letter]) := by
  have hbit : g.value.bit? = s.get? letter := by
    rw [hv, Assignment.value, Value.bit?_ofBit?]
  simp only [readInput, hk, GateKind.letter?, hbit]
  cases hs : s.get? letter with
  | none =>
    rw [ht]
    split_ifs
    · rfl
    · simp [Assignment.entriesFor, hs]
  | some bit =>
    have hfound : (t.get? letter).isSome = true ↔ letter ∈ ls := by
      rw [Assignment.get?, hupper, ht, List.lookup_isSome_iff]
      constructor
      · rintro ⟨e, he, heq⟩
        obtain rfl : letter = e.1 := by simpa using heq
        exact (Assignment.mem_entriesFor.mp he).1
      · exact fun hl => ⟨(letter, bit), Assignment.mem_entriesFor.mpr ⟨hl, hs⟩, by simp⟩
    simp only [hfound]
    split_ifs with hl
    · exact ht
    · rw [Assignment.set, hupper, Assignment.setEntry_of_notMem, ht]
      · simp [Assignment.entriesFor, hs]
      · rintro e he rfl
        rw [ht] at he
        exact hl (Assignment.mem_entriesFor.mp he).1

/-- When the gates of each letter carry what an assignment gives it, the letters that it assigns are
read back, in the order of their first gates. -/
theorem entries_foldl_readInput {s : Assignment} {gates : List Gate}
    (hn : ∀ g ∈ gates, g.kind.normalized = g.kind)
    (hv : ∀ g ∈ gates, ∀ l, g.kind = .var l → g.value = s.value l) :
    (gates.foldl readInput {}).entries =
      s.entriesFor (gates.filterMap (·.kind.letter?)).eraseDups := by
  induction gates using List.reverseRecOn with
  | nil => rfl
  | append_singleton gates g ih =>
    have hrest := ih (fun a ha => hn a (List.mem_append_left _ ha))
      fun a ha => hv a (List.mem_append_left _ ha)
    have hmem : g ∈ gates ++ [g] := List.mem_append_right _ (List.mem_singleton_self g)
    rw [List.foldl_append, List.foldl_cons, List.foldl_nil, List.filterMap_append]
    cases hk : g.kind with
    | var letter =>
      have hupper : letter.toUpper = letter := by
        have hnormal := hn g hmem
        rw [hk] at hnormal
        exact GateKind.var.inj hnormal
      have hone : [g].filterMap (·.kind.letter?) = [letter] := by simp [hk, GateKind.letter?]
      rw [readInput_eq hrest hk hupper (hv g hmem letter hk), hone, eraseDups_concat]
    | const b => simp [readInput, hk, GateKind.letter?, hrest]
    | not => simp [readInput, hk, GateKind.letter?, hrest]
    | binary op => simp [readInput, hk, GateKind.letter?, hrest]

theorem WellFormed.inputAssignment_setInputs (hc : c.WellFormed) (s : Assignment) :
    (c.setInputs s).inputAssignment.toList = s.entriesFor c.registry.letters := by
  have hskeleton := c.skeleton_setInputs s
  rw [letters_registry, ← letters_of_skeleton hskeleton]
  refine entries_foldl_readInput (hc.of_skeleton_eq hskeleton).normalized fun g hg l hk => ?_
  exact carries_setInputs c s l g hg hk

/-! ## All letters -/

/-- The registry of a circuit, the operations that set letters, and what is read back agree on the
gates of each letter. -/
structure LettersCorrespond (c : Circuit) : Prop where
  distinct : c.registry.letters.Nodup
  lists : ∀ e ∈ c.registry.entries, e.2 ≠ [] ∧ e.2.Pairwise (· < ·)
  /-- A gate is listed exactly under the letter that it stands for. -/
  listed : ∀ letter id, (∃ e ∈ c.registry.entries, e.1 = letter ∧ id ∈ e.2) ↔
    ∃ g ∈ c.gates, g.id = id ∧ g.kind = .var letter
  /-- The letters are in the order of their smallest gates. -/
  ordered : c.registry.entries.Pairwise fun d e =>
    ∀ i j, IsLeast {id | id ∈ d.2} i → IsLeast {id | id ∈ e.2} j → i < j
  onePass : c.gates.foldl register [] = c.registry.entries
  /-- Setting a letter, in either case, goes through the gates that the registry lists for it and
  changes nothing but their values. -/
  counted : ∀ letter value, setLetter letter value c.gates =
    ((c.setInput letter value).gates, (c.registry.gates letter).length)
  found : ∀ letter, c.inputGates letter = c.registry.gates letter
  set : ∀ letter value, c.setInput letter value =
    c.mapGates fun g => if g.id ∈ c.registry.gates letter then { g with value } else g
  /-- Setting all letters at once is setting them one by one, in any order. -/
  setAll : ∀ (s : Assignment) (ls : List Char), ls.Perm c.registry.letters →
    c.setInputs s = ls.foldl (fun d l => d.setInput l (s.value l)) c
  /-- The letters that were assigned are read back, in the order of the registry. -/
  readBack : ∀ s : Assignment,
    (c.setInputs s).inputAssignment.toList = s.entriesFor c.registry.letters

theorem WellFormed.lettersCorrespond (hc : c.WellFormed) : c.LettersCorrespond where
  distinct := by
    rw [letters_registry]
    exact c.nodup_letters
  lists := by
    intro e he
    obtain ⟨hl, hids⟩ := mem_entries.mp he
    rw [hids]
    exact ⟨gatesOf_ne_nil hl, hc.ascending_gatesOf e.1⟩
  listed := by
    intro letter id
    rw [← mem_gatesOf]
    constructor
    · rintro ⟨e, he, rfl, hid⟩
      rwa [(mem_entries.mp he).2] at hid
    · intro hid
      obtain ⟨g, hg, -, hk⟩ := mem_gatesOf.mp hid
      exact ⟨(letter, c.gatesOf letter), mem_entries.mpr ⟨mem_letters.mpr ⟨g, hg, hk⟩, rfl⟩, rfl,
        hid⟩
  ordered := by
    rw [registry, List.pairwise_map]
    refine (pairwise_letters hc.ascending).imp ?_
    rintro a b ⟨g, hg, hk, hlt⟩ i j hi hj
    obtain ⟨h, hh, rfl, hkb⟩ := mem_gatesOf.mp hj.1
    exact (hi.2 (mem_gatesOf.mpr ⟨g, hg, rfl, hk⟩)).trans_lt (hlt h hh hkb)
  onePass := c.foldl_register
  counted := c.setLetter_eq
  found := c.inputGates_eq
  set := hc.setInput_eq
  setAll := by
    intro s ls hls
    rw [letters_registry] at hls
    rw [foldl_setInput fun l hl => hc.toUpper_letters l (hls.mem_iff.mp hl)]
    refine mapInputs_congr fun l hl v => ?_
    rw [if_pos (hls.mem_iff.mpr hl)]
  readBack := hc.inputAssignment_setInputs

/-- The letters and the gates correspond in every circuit that arises by building, loading and
editing. -/
theorem letters_correspond (hc : c.Reachable) : c.LettersCorrespond :=
  hc.wellFormed.lettersCorrespond

/-- A letter that was given to two gates, once in each case, and another one between them. -/
def repeated : Circuit :=
  [Edit.addGate (.var 'b') {}, .addGate (.var 'a') {}, .addGate .not {}, .addGate (.var 'B') {},
    .setInput 'a' (.known true)].foldl Edit.apply empty

theorem letters_correspond_repeated :
    repeated.Reachable ∧ repeated.LettersCorrespond ∧
      repeated.registry.entries = [('B', [0, 3]), ('A', [1])] := by
  have hr : repeated.Reachable := Reachable.empty.edits
    ⟨(by decide : 0 < idBound), (by decide : 1 < idBound), (by decide : 2 < idBound),
      (by decide : 3 < idBound), trivial, trivial⟩
  exact ⟨hr, letters_correspond hr, by decide⟩

end Circuit

end LogicCircuit
