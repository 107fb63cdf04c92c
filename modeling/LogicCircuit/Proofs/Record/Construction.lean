import LogicCircuit.Proofs.Circuit.Reachable

/-!
# Building circuits from records in any order

A record may list its gates and wires in any order. A gate is added if its identifier is new and
its record is `Admissible`, which depends on nothing but the record; so the gates of a record can
be added in one order exactly if they can in any other. A wire is connected if no wire before it
entered the same slot.

Results:
* `GateRecord.addTo_eq_ok_iff`: what it takes to add a gate, and what comes of it.
* `Gathered.of_foldlM`, `Gathered.exists_foldlM`: what adding some gates comes to, and when all can
  be added.
* `Linked.of_foldlM`, `Linked.exists_foldlM`: the same for wires.
-/

namespace LogicCircuit

/-! ## Names of kinds -/

theorem GateKind.of_ofText? {text : String} {k : GateKind} (h : ofText? text = some k) :
    k.normalized = k ∧ ∀ letter, k = .var letter → letter.isAlpha = true := by
  unfold ofText? ofLetters? at h
  split at h
  · unfold ofLetter? at h
    split_ifs at h with halpha
    cases h
    refine ⟨by simp [normalized], ?_⟩
    rintro letter ⟨⟩
    have hup := (Char.isUpper_toUpper_eq_isAlpha _).trans halpha
    rw [Char.isAlpha, hup, Bool.true_or]
  · have hmem := List.mem_of_find?_eq_some h
    simp [words, Operator.all] at hmem
    rcases hmem with rfl | rfl | rfl | rfl | rfl | rfl | rfl | rfl | rfl <;> simp [normalized]

/-! ## What records declare -/

/-- The gate that a record declares, if its kind has a name. -/
def GateRecord.gate? (r : GateRecord) : Option Gate :=
  (GateKind.ofText? r.kind).map fun kind =>
    { id := r.id, kind, slots := r.slots, value := r.value, position := { x := r.x, y := r.y } }

/-- The wire that a record lists. -/
def WireRecord.wire (w : WireRecord) : Wire :=
  { source := w.source, target := w.target, slot := w.slot }

/-- What is left of a gate without its slots. -/
def Gate.bare (g : Gate) : Gate := { g with slots := [] }

theorem Gate.id_eq_of_bare {g h : Gate} (hb : g.bare = h.bare) : g.id = h.id :=
  (Gate.mk.inj hb).1

theorem Gate.kind_eq_of_bare {g h : Gate} (hb : g.bare = h.bare) : g.kind = h.kind :=
  (Gate.mk.inj hb).2.1

/-- The gate with empty slots and no mark. -/
def Gate.unwired (g : Gate) : Gate := { Gate.fresh g.id g.kind g.position with value := g.value }

/-- A record of a gate that can be added where there is no gate of its identifier. -/
structure GateRecord.Admissible (r : GateRecord) : Prop where
  kind : ∃ kind, GateKind.ofText? r.kind = some kind ∧ r.slots.length = kind.arity
  bound : r.id < Circuit.idBound

/-! ## Adding the gates -/

theorem Circuit.addGateAs_eq_ok_iff {c d : Circuit} {g : Gate} (hn : g.kind.normalized = g.kind) :
    c.addGateAs g = .ok d ↔ g.id < idBound ∧ g.id ∉ c.ids ∧
      d = { c with gates := insertGate g c.gates, nextId := max c.nextId (g.id + 1) } := by
  constructor
  · intro h
    unfold addGateAs at h
    split_ifs at h with hb hid
    rw [hn] at h
    cases h
    exact ⟨Nat.not_le.mp hb, mt contains_iff.mpr hid, rfl⟩
  · rintro ⟨hb, hid, rfl⟩
    unfold addGateAs
    rw [if_neg (Nat.not_le.mpr hb), if_neg (mt contains_iff.mp hid), hn]

/-- What it takes to add the gate of a record, and what comes of it. -/
theorem GateRecord.addTo_eq_ok_iff {r : GateRecord} {c d : Circuit} :
    r.addTo c = .ok d ↔ r.Admissible ∧ r.id ∉ c.ids ∧ ∃ g, r.gate? = some g ∧ d = { c with
      gates := Circuit.insertGate g.unwired c.gates
      nextId := max c.nextId (r.id + 1) } := by
  unfold addTo
  cases hk : GateKind.ofText? r.kind with
  | none =>
    simp only [reduceCtorEq, false_iff]
    rintro ⟨⟨⟨kind, hkind, -⟩, -⟩, -⟩
    rw [hk] at hkind
    cases hkind
  | some kind =>
    have hn := (GateKind.of_ofText? hk).1
    dsimp only
    split_ifs with ha
    · simp only [false_iff]
      rintro ⟨⟨⟨kind', hkind, h⟩, -⟩, -⟩
      rw [hk] at hkind
      cases hkind
      exact ha h
    · rw [Circuit.addGateAs_eq_ok_iff hn]
      constructor
      · rintro ⟨hb, hid, rfl⟩
        exact ⟨⟨⟨kind, hk, not_not.mp ha⟩, hb⟩, hid, _, by rw [gate?, hk]; rfl, rfl⟩
      · rintro ⟨hadm, hid, g, hg, rfl⟩
        rw [gate?, hk] at hg
        cases hg
        exact ⟨hadm.bound, hid, rfl⟩

namespace Circuit

/-- The gates are those that some records declare, up to their order and their slots. -/
structure Declared (rs : List GateRecord) (gs : List Gate) : Prop where
  admissible : ∀ r ∈ rs, r.Admissible
  bare : (gs.map fun g => some g.bare).Perm (rs.map fun r => r.gate?.map Gate.bare)

namespace Declared

variable {rs : List GateRecord} {gs : List Gate}

theorem ids_perm (h : Declared rs gs) : (gs.map (·.id)).Perm (rs.map (·.id)) := by
  have hperm := h.bare.map fun g => (g.map Gate.id).getD 0
  rw [List.map_map, List.map_map] at hperm
  have hright : rs.map ((fun g => (g.map Gate.id).getD 0) ∘ fun r => r.gate?.map Gate.bare) =
      rs.map (·.id) := by
    refine List.map_congr_left fun r hr => ?_
    obtain ⟨kind, hk, -⟩ := (h.admissible r hr).kind
    simp [GateRecord.gate?, hk, Gate.bare]
  exact hright ▸ hperm

/-- A gate is that of one of the records, up to its slots. -/
theorem exists_record (h : Declared rs gs) {g : Gate} (hg : g ∈ gs) :
    ∃ r ∈ rs, ∃ g', r.gate? = some g' ∧ g.bare = g'.bare := by
  obtain ⟨r, hr, hb⟩ := List.mem_map.mp (h.bare.mem_iff.mp (List.mem_map_of_mem hg))
  obtain ⟨g', hg', hb⟩ := Option.map_eq_some_iff.mp hb
  exact ⟨r, hr, g', hg', hb.symm⟩

/-- The gate of each of the records is there, up to its slots. -/
theorem exists_gate (h : Declared rs gs) {r : GateRecord} (hr : r ∈ rs) :
    ∃ g ∈ gs, ∃ g', r.gate? = some g' ∧ g.bare = g'.bare := by
  obtain ⟨kind, hk, -⟩ := (h.admissible r hr).kind
  obtain ⟨g', hg'⟩ : ∃ g', r.gate? = some g' := ⟨_, by rw [GateRecord.gate?, hk]; rfl⟩
  have hmem : some g'.bare ∈ rs.map fun r => r.gate?.map Gate.bare :=
    List.mem_map.mpr ⟨r, hr, by rw [hg']; rfl⟩
  obtain ⟨g, hg, hb⟩ := List.mem_map.mp (h.bare.mem_iff.mpr hmem)
  exact ⟨g, hg, g', hg', Option.some.inj hb⟩

theorem of_map_bare {gs' : List Gate} (h : Declared rs gs)
    (he : gs'.map Gate.bare = gs.map Gate.bare) : Declared rs gs' := by
  have hsome := congrArg (List.map some) he
  rw [List.map_map, List.map_map] at hsome
  exact ⟨h.admissible, (List.Perm.of_eq hsome).trans h.bare⟩

end Declared

/-- The gates of some records have been added, with empty slots. -/
structure Gathered (rs : List GateRecord) (d : Circuit) : Prop where
  wellFormed : d.WellFormed
  declared : Declared rs d.gates
  wires : d.wires = []
  /-- The next identifier is the first one that is above all others. -/
  nextId : ∀ n, d.nextId ≤ n ↔ ∀ id ∈ d.ids, id < n

namespace Gathered

variable {rs : List GateRecord} {r : GateRecord} {d e : Circuit}

theorem add (h : Gathered rs d) (hr : r.addTo d = .ok e) : Gathered (rs ++ [r]) e := by
  have hwf := h.wellFormed.addGateRecord hr
  obtain ⟨hadm, hid, g, hg, rfl⟩ := GateRecord.addTo_eq_ok_iff.mp hr
  have hgid : g.unwired.id = r.id := by
    obtain ⟨kind, -, rfl⟩ := Option.map_eq_some_iff.mp hg
    rfl
  have hbare : g.unwired.bare = g.bare := by
    obtain ⟨kind, -, rfl⟩ := Option.map_eq_some_iff.mp hg
    rfl
  have hperm := insertGate_perm g.unwired d.gates
  refine ⟨hwf, ⟨?_, ?_⟩, h.wires, fun n => ?_⟩
  · intro r' hr'
    rcases List.mem_append.mp hr' with hr' | hr'
    · exact h.declared.admissible r' hr'
    · exact List.mem_singleton.mp hr' ▸ hadm
  · rw [List.map_append, List.map_singleton, hg, Option.map_some]
    refine (hperm.map _).trans ?_
    rw [List.map_cons, hbare]
    exact (h.declared.bare.cons _).trans (List.perm_append_singleton _ _).symm
  · have hids : ∀ id, id ∈ (insertGate g.unwired d.gates).map (·.id) ↔ id = r.id ∨ id ∈ d.ids := by
      intro id
      rw [(hperm.map _).mem_iff, List.map_cons, List.mem_cons, hgid]
      rfl
    show max d.nextId (r.id + 1) ≤ n ↔ ∀ id ∈ (insertGate g.unwired d.gates).map (·.id), id < n
    simp only [hids, max_le_iff, h.nextId, Nat.succ_le_iff, forall_eq_or_imp]
    exact and_comm

theorem of_foldlM (h : rs.foldlM (fun c r => r.addTo c) empty = .ok d) : Gathered rs d := by
  induction rs using List.reverseRecOn generalizing d with
  | nil =>
    cases h
    exact ⟨.empty, ⟨by simp, .nil⟩, rfl, by simp [empty, ids]⟩
  | append_singleton rs r ih =>
    rw [List.foldlM_append, bind_eq_ok] at h
    obtain ⟨d₁, h₁, h⟩ := h
    rw [List.foldlM_cons, bind_eq_ok] at h
    obtain ⟨d₂, h₂, h⟩ := h
    cases h
    exact (ih h₁).add h₂

/-- Admissible records with different identifiers are all added. -/
theorem exists_foldlM (ha : ∀ r ∈ rs, r.Admissible) (hn : (rs.map (·.id)).Nodup) :
    ∃ d, rs.foldlM (fun c r => r.addTo c) empty = .ok d := by
  induction rs using List.reverseRecOn with
  | nil => exact ⟨empty, rfl⟩
  | append_singleton rs r ih =>
    rw [List.map_append, List.map_singleton, List.nodup_append] at hn
    obtain ⟨d, hd⟩ := ih (fun r hr => ha r (List.mem_append_left _ hr)) hn.1
    have hadm := ha r (List.mem_append_right _ (List.mem_singleton_self r))
    have hid : r.id ∉ d.ids := by
      intro hmem
      exact hn.2.2 r.id ((of_foldlM hd).declared.ids_perm.mem_iff.mp hmem) r.id (by simp) rfl
    obtain ⟨kind, hk, -⟩ := hadm.kind
    obtain ⟨g, hg⟩ : ∃ g, r.gate? = some g := ⟨_, by rw [GateRecord.gate?, hk]; rfl⟩
    obtain ⟨e, he⟩ : ∃ e, r.addTo d = .ok e :=
      ⟨_, GateRecord.addTo_eq_ok_iff.mpr ⟨hadm, hid, g, hg, rfl⟩⟩
    refine ⟨e, ?_⟩
    rw [List.foldlM_append, hd, ok_bind, List.foldlM_cons, he]
    rfl

end Gathered

/-! ## Connecting the wires -/

/-- The wires of some records have been connected in a circuit without wires. -/
structure Linked (d : Circuit) (ws : List WireRecord) (e : Circuit) : Prop where
  wellFormed : e.WellFormed
  gates : e.gates.map Gate.bare = d.gates.map Gate.bare
  wires : e.wires = ws.map WireRecord.wire
  nextId : e.nextId = d.nextId

namespace Linked

variable {ws : List WireRecord} {w : WireRecord} {d e e' : Circuit}

theorem ids (h : d.Linked ws e) : e.ids = d.ids := by
  have hids := congrArg (List.map (·.id)) h.gates
  rw [List.map_map, List.map_map] at hids
  exact hids

theorem connect (h : d.Linked ws e) (hw : w.addTo e = .ok e') : d.Linked (ws ++ [w]) e' := by
  have hwf := h.wellFormed.connect hw
  obtain ⟨-, -, -, rfl⟩ := connect_eq_ok_iff.mp hw
  refine ⟨hwf, ?_, ?_, h.nextId⟩
  · rw [← h.gates]
    show (e.gates.map _).map _ = _
    rw [List.map_map]
    refine List.map_congr_left fun a _ => ?_
    simp only [Function.comp_apply]
    split_ifs <;> rfl
  · show e.wires ++ _ = _
    rw [h.wires, List.map_append]
    rfl

theorem of_foldlM (hd : d.WellFormed) (hw : d.wires = [])
    (h : ws.foldlM (fun c w => w.addTo c) d = .ok e) : d.Linked ws e := by
  induction ws using List.reverseRecOn generalizing e with
  | nil =>
    cases h
    exact ⟨hd, rfl, hw, rfl⟩
  | append_singleton ws w ih =>
    rw [List.foldlM_append, bind_eq_ok] at h
    obtain ⟨e₁, h₁, h⟩ := h
    rw [List.foldlM_cons, bind_eq_ok] at h
    obtain ⟨e₂, h₂, h⟩ := h
    cases h
    exact (ih h₁).connect h₂

/-- A slot that no wire enters is empty. -/
theorem driver?_eq_none (h : d.Linked ws e) {g : Gate} (hg : g ∈ e.gates) {slot : Nat}
    (hfree : (g.id, slot) ∉ ws.map fun w => (w.target, w.slot)) : g.driver? slot = none := by
  cases hd : g.driver? slot with
  | none => rfl
  | some source =>
    have hmem := (h.wellFormed.wired source g.id slot).mpr ⟨g, hg, rfl, hd⟩
    rw [h.wires, List.map_map] at hmem
    obtain ⟨w, hw, he⟩ := List.mem_map.mp hmem
    simp only [Function.comp_apply, Wire.ends, WireRecord.wire, Prod.mk.injEq] at he
    exact absurd (List.mem_map.mpr ⟨w, hw, Prod.ext he.2.1 he.2.2⟩) hfree

/-- Wires between different gates, no two of them into the same slot, are all connected. -/
theorem exists_foldlM (hd : d.WellFormed) (hw : d.wires = [])
    (hends : ∀ w ∈ ws, w.source ∈ d.ids ∧ w.source ≠ w.target ∧
      ∃ g ∈ d.gates, g.id = w.target ∧ w.slot < g.kind.arity)
    (hn : (ws.map fun w => (w.target, w.slot)).Nodup) :
    ∃ e, ws.foldlM (fun c w => w.addTo c) d = .ok e := by
  induction ws using List.reverseRecOn with
  | nil => exact ⟨d, rfl⟩
  | append_singleton ws w ih =>
    rw [List.map_append, List.map_singleton, List.nodup_append] at hn
    obtain ⟨e, he⟩ := ih (fun w hw => hends w (List.mem_append_left _ hw)) hn.1
    have hlinked := of_foldlM hd hw he
    obtain ⟨hsource, hne, g, hg, hid, hlt⟩ :=
      hends w (List.mem_append_right _ (List.mem_singleton_self w))
    obtain ⟨g', hg', hbare⟩ : ∃ g' ∈ e.gates, g'.bare = g.bare :=
      List.mem_map.mp (hlinked.gates ▸ List.mem_map_of_mem hg)
    have hid' := Gate.id_eq_of_bare hbare
    have hslot : w.slot < g'.slots.length := by
      rw [hlinked.wellFormed.arity g' hg', Gate.kind_eq_of_bare hbare]
      exact hlt
    have hfree : g'.driver? w.slot = none := by
      refine hlinked.driver?_eq_none hg' fun hmem => ?_
      rw [hid', hid] at hmem
      exact hn.2.2 _ hmem _ (List.mem_singleton_self _) rfl
    have hok : w.addTo e = .ok (e.attach w.source w.target w.slot) :=
      connect_eq_ok_iff.mpr ⟨hlinked.ids ▸ hsource, hne,
        ⟨g', hlinked.wellFormed.gate?_eq_some.mpr ⟨hg', hid'.trans hid⟩, hslot, hfree⟩, rfl⟩
    refine ⟨e.attach w.source w.target w.slot, ?_⟩
    rw [List.foldlM_append, he, ok_bind, List.foldlM_cons, hok]
    rfl

end Linked

end Circuit

end LogicCircuit
