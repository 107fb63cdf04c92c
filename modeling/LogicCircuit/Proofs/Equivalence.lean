import LogicCircuit.Equivalence
import LogicCircuit.Proofs.Assignment.Digits
import LogicCircuit.Proofs.Evaluation.Locality

/-!
# Comparing circuits

Two circuits are compared under as many assignments as their letters have. That decides about all
assignments, since each one that gives a bit to every letter agrees on them with one that was
tried, and a circuit reads nothing else. The assignments are tried in ascending order of their
digits, so the one that is answered is the first one under which the circuits differ.

Results:
* `firstFrom?_eq_some_iff`: the search finds the first number that satisfies the test.
* `firstDifference?_eq_stepwise`: a comparison is what evaluating both circuits under one
  assignment after the other comes to.
* `firstDifference?_exact`: the answer of the comparison.
-/

namespace LogicCircuit

/-! ## The first number that satisfies a test -/

theorem firstFrom?_eq_some_iff {p : Nat → Bool} {start count n : Nat} :
    firstFrom? p start count = some n ↔
      start ≤ n ∧ n < start + count ∧ p n = true ∧ ∀ m, start ≤ m → m < n → p m = false := by
  induction count generalizing start with
  | zero =>
    simp only [firstFrom?, reduceCtorEq, false_iff]
    omega
  | succ count ih =>
    rw [firstFrom?]
    split_ifs with hp
    · constructor
      · rintro ⟨⟩
        exact ⟨le_rfl, by omega, hp, fun m h1 h2 => by omega⟩
      · rintro ⟨h1, h2, h3, h4⟩
        rcases Nat.eq_or_lt_of_le h1 with rfl | hlt
        · rfl
        · rw [h4 start le_rfl hlt] at hp
          cases hp
    · rw [ih]
      constructor
      · rintro ⟨h1, h2, h3, h4⟩
        refine ⟨by omega, by omega, h3, fun m hm hlt => ?_⟩
        rcases Nat.eq_or_lt_of_le hm with rfl | hm
        · exact Bool.eq_false_iff.mpr hp
        · exact h4 m hm hlt
      · rintro ⟨h1, h2, h3, h4⟩
        have hne : start ≠ n := by
          rintro rfl
          exact hp h3
        exact ⟨by omega, by omega, h3, fun m hm hlt => h4 m (by omega) hlt⟩

namespace Circuit

variable {a b : Circuit}

/-! ## Agreeing and differing -/

/-- Both circuits have an evaluation under the assignment, with the same first output. -/
def AgreeUnder (a b : Circuit) (s : Assignment) : Prop :=
  ∃ x y, a.evaluate s = .ok x ∧ b.evaluate s = .ok y ∧ x.firstOutput = y.firstOutput

/-- Both circuits have an evaluation under the assignment, with different first outputs. -/
def DifferUnder (a b : Circuit) (s : Assignment) : Prop :=
  ∃ x y, a.evaluate s = .ok x ∧ b.evaluate s = .ok y ∧ x.firstOutput ≠ y.firstOutput

theorem agreeUnder_congr (ha : a.WellFormed) (hb : b.WellFormed) {s t : Assignment}
    (h : ∀ l ∈ a.commonLetters b, s.get? l = t.get? l) : a.AgreeUnder b s ↔ a.AgreeUnder b t := by
  unfold AgreeUnder
  rw [evaluate_congr ha fun l hl => h l (mem_commonLetters.mpr (Or.inl hl)),
    evaluate_congr hb fun l hl => h l (mem_commonLetters.mpr (Or.inr hl))]

/-! ## Assignment by assignment -/

/-- Evaluate both circuits under the assignments of some consecutive numbers, until their first
outputs differ or one of them turns out to have a loop. -/
def compareFrom (a b : Circuit) (letters : List Char) :
    (start count : Nat) → Except TableError (Option Assignment)
  | _, 0 => .ok none
  | n, count + 1 =>
    let s := Assignment.ofDigits letters n
    match a.evaluate s with
    | .error e => .error (.loop e)
    | .ok x =>
      match b.evaluate s with
      | .error e => .error (.loop e)
      | .ok y =>
        if x.firstOutput = y.firstOutput then compareFrom a b letters (n + 1) count
        else .ok (some s)

/-- Compare two circuits assignment by assignment. -/
def compareStepwise (a b : Circuit) (limits : Limits) : Except TableError (Option Assignment) :=
  let letters := a.commonLetters b
  if limits.tableLetters < letters.length then
    .error (.tooLarge letters.length limits.tableLetters)
  else compareFrom a b letters 0 (Assignment.count letters)

/-- Whether the first outputs differ under the assignment of a number. -/
def differsAt (a b : Circuit) (gatesA gatesB : List Gate) (letters : List Char) (n : Nat) : Bool :=
  let s := Assignment.ofDigits letters n
  (a.evaluateAlong gatesA s).firstOutput != (b.evaluateAlong gatesB s).firstOutput

theorem differsAt_eq_true {gatesA gatesB : List Gate} (hpa : a.plan = .ok gatesA)
    (hpb : b.plan = .ok gatesB) {letters : List Char} {n : Nat} :
    a.differsAt b gatesA gatesB letters n = true ↔
      a.DifferUnder b (Assignment.ofDigits letters n) := by
  simp [differsAt, DifferUnder, evaluate, hpa, hpb, Except.map]

theorem differsAt_eq_false {gatesA gatesB : List Gate} (hpa : a.plan = .ok gatesA)
    (hpb : b.plan = .ok gatesB) {letters : List Char} {n : Nat} :
    a.differsAt b gatesA gatesB letters n = false ↔
      a.AgreeUnder b (Assignment.ofDigits letters n) := by
  simp [differsAt, AgreeUnder, evaluate, hpa, hpb, Except.map]

theorem compareFrom_of_plans {gatesA gatesB : List Gate} (hpa : a.plan = .ok gatesA)
    (hpb : b.plan = .ok gatesB) {letters : List Char} {start count : Nat} :
    compareFrom a b letters start count =
      .ok ((firstFrom? (a.differsAt b gatesA gatesB letters) start count).map
        (Assignment.ofDigits letters)) := by
  induction count generalizing start with
  | zero => rfl
  | succ count ih =>
    rw [compareFrom, firstFrom?, evaluate, evaluate, hpa, hpb]
    simp only [Except.map, differsAt, bne_iff_ne, ne_eq, ite_not]
    split_ifs
    · exact ih
    · rfl

/-- A comparison is what evaluating both circuits under one assignment after the other comes to. -/
theorem firstDifference?_eq_stepwise (a b : Circuit) (limits : Limits) :
    a.firstDifference? b limits = a.compareStepwise b limits := by
  unfold firstDifference? compareStepwise
  dsimp only
  split_ifs with hlarge
  · rfl
  obtain ⟨count, hcount⟩ : ∃ n, Assignment.count (a.commonLetters b) = n + 1 :=
    Nat.exists_eq_succ_of_ne_zero (by simp [Assignment.count_eq])
  cases hpa : a.plan with
  | error e => rw [hcount, compareFrom, evaluate, hpa]; rfl
  | ok gatesA =>
    cases hpb : b.plan with
    | error e => rw [hcount, compareFrom, evaluate, evaluate, hpa, hpb]; rfl
    | ok gatesB => exact (compareFrom_of_plans hpa hpb).symm

theorem compareFrom_of_agree (h : ∀ s, a.AgreeUnder b s) (letters : List Char)
    (start count : Nat) : compareFrom a b letters start count = .ok none := by
  induction count generalizing start with
  | zero => rfl
  | succ count ih =>
    obtain ⟨x, y, hx, hy, he⟩ := h (Assignment.ofDigits letters start)
    rw [compareFrom, hx]
    simp only [hy, if_pos he]
    exact ih (start + 1)

/-- Circuits that agree under every assignment do not differ. -/
theorem firstDifference?_of_agree (h : ∀ s, a.AgreeUnder b s) {limits : Limits}
    (hk : (a.commonLetters b).length ≤ limits.tableLetters) :
    a.firstDifference? b limits = .ok none := by
  rw [firstDifference?_eq_stepwise, compareStepwise]
  simp only [if_neg hk.not_gt]
  exact compareFrom_of_agree h _ _ _

/-! ## The answer -/

/-- The letters of the first circuit, then those that only the second one has. -/
def joinedLetters (a b : Circuit) : List Char :=
  a.registry.letters ++ b.registry.letters.filter (fun l => !a.registry.letters.contains l)

theorem joinedLetters_eq (a b : Circuit) : a.joinedLetters b = a.commonLetters b := by
  rw [commonLetters_eq, joinedLetters, letters_registry, letters_registry]

/-- What comparing two circuits comes to. -/
structure ComparesExactly (a b : Circuit) (limits : Limits) : Prop where
  stepwise : a.firstDifference? b limits = a.compareStepwise b limits
  /-- There are no more letters than in the alphabet. -/
  alphabet : (a.joinedLetters b).length ≤ 26
  tooLarge : limits.tableLetters < (a.joinedLetters b).length →
    a.firstDifference? b limits = .error (.tooLarge (a.joinedLetters b).length limits.tableLetters)
  loop : (a.joinedLetters b).length ≤ limits.tableLetters → ¬ (a.Acyclic ∧ b.Acyclic) →
    ∃ id, (a.OnLoop id ∨ b.OnLoop id) ∧ a.firstDifference? b limits = .error (.loop ⟨id⟩)
  /-- There is no difference exactly if the circuits agree under every assignment of the letters.
  Otherwise the answer assigns the letters in their order, the circuits differ under it, and they
  agree under all assignments whose digits come before its own. -/
  verdict : (a.joinedLetters b).length ≤ limits.tableLetters → a.Acyclic → b.Acyclic →
    ∃ answer, a.firstDifference? b limits = .ok answer ∧
      (answer = none ↔ ∀ s : Assignment, s.Covers (a.joinedLetters b) → a.AgreeUnder b s) ∧
      ∀ s, answer = some s → s.toList.map (·.1) = a.joinedLetters b ∧ a.DifferUnder b s ∧
        ∀ t : Assignment, t.Covers (a.joinedLetters b) →
          binary (t.bits (a.joinedLetters b)) < binary (s.bits (a.joinedLetters b)) →
          a.AgreeUnder b t

theorem agreeUnder_iff_digits (ha : a.WellFormed) (hb : b.WellFormed) {s : Assignment}
    (h : s.Covers (a.commonLetters b)) : a.AgreeUnder b s ↔
      a.AgreeUnder b (.ofDigits (a.commonLetters b) (binary (s.bits (a.commonLetters b)))) :=
  agreeUnder_congr ha hb (Assignment.get?_ofDigits_binary_bits (nodup_commonLetters a b)
    (ha.toUpper_commonLetters hb) h)

/-- Circuits that agree under every assignment that is tried agree under all. -/
theorem forall_agreeUnder_iff (ha : a.WellFormed) (hb : b.WellFormed) :
    (∀ s : Assignment, s.Covers (a.commonLetters b) → a.AgreeUnder b s) ↔
      ∀ n < 2 ^ (a.commonLetters b).length,
        a.AgreeUnder b (.ofDigits (a.commonLetters b) n) := by
  constructor
  · intro h n _
    exact h _ (Assignment.covers_ofDigits (nodup_commonLetters a b) (ha.toUpper_commonLetters hb) n)
  · intro h s hs
    have hlt := binary_lt (s.bits (a.commonLetters b))
    rw [Assignment.length_bits] at hlt
    exact (agreeUnder_iff_digits ha hb hs).mpr (h _ hlt)

theorem verdict_of_plans (ha : a.WellFormed) (hb : b.WellFormed) {gatesA gatesB : List Gate}
    (hpa : a.plan = .ok gatesA) (hpb : b.plan = .ok gatesB) {L : List Char}
    (hL : L = a.commonLetters b) {answer : Option Assignment}
    (h : answer = (firstFrom? (a.differsAt b gatesA gatesB L) 0 (Assignment.count L)).map
      (Assignment.ofDigits L)) :
    (answer = none ↔ ∀ s : Assignment, s.Covers L → a.AgreeUnder b s) ∧
      ∀ s, answer = some s → s.toList.map (·.1) = L ∧ a.DifferUnder b s ∧
        ∀ t : Assignment, t.Covers L → binary (t.bits L) < binary (s.bits L) →
          a.AgreeUnder b t := by
  have hn : L.Nodup := hL ▸ nodup_commonLetters a b
  have hu : ∀ l ∈ L, l.toUpper = l := hL ▸ ha.toUpper_commonLetters hb
  rw [Assignment.count_eq] at h
  constructor
  · rw [h, Option.map_eq_none_iff, firstFrom?_eq_none_iff, hL, forall_agreeUnder_iff ha hb]
    simp only [Nat.zero_add, differsAt_eq_false hpa hpb]
  · rintro s rfl
    obtain ⟨n, hfirst, rfl⟩ := Option.map_eq_some_iff.mp h.symm
    obtain ⟨-, hlt, hdiffer, hbefore⟩ := firstFrom?_eq_some_iff.mp hfirst
    refine ⟨?_, (differsAt_eq_true hpa hpb).mp hdiffer, fun t ht hless => ?_⟩
    · show (Assignment.digitEntries L n).map (·.1) = L
      rw [Assignment.map_fst_digitEntries, List.map_congr_left hu, List.map_id']
    · rw [Assignment.bits_ofDigits hn hu, binary_binaryDigits (by simpa using hlt)] at hless
      subst hL
      rw [agreeUnder_iff_digits ha hb ht]
      exact (differsAt_eq_false hpa hpb).mp (hbefore _ (Nat.zero_le _) hless)

theorem firstDifference?_exact (ha : a.WellFormed) (hb : b.WellFormed)
    (hla : ∀ l ∈ a.registry.letters, l.isAlpha = true)
    (hlb : ∀ l ∈ b.registry.letters, l.isAlpha = true) (limits : Limits) :
    a.ComparesExactly b limits := by
  rw [letters_registry] at hla hlb
  refine ⟨firstDifference?_eq_stepwise a b limits, ?_, ?_, ?_, ?_⟩ <;> rw [joinedLetters_eq]
  · refine length_le_of_isAlpha (nodup_commonLetters a b) (ha.toUpper_commonLetters hb) ?_
    intro l hl
    exact (mem_commonLetters.mp hl).elim (hla l) (hlb l)
  · intro hk
    unfold firstDifference?
    simp only [if_pos hk]
  · intro hk hcyclic
    unfold firstDifference?
    simp only [if_neg hk.not_gt]
    cases hpa : a.plan with
    | error e => exact ⟨e.gate, Or.inl (plan_eq_error ha hpa), rfl⟩
    | ok gatesA =>
      cases hpb : b.plan with
      | error e => exact ⟨e.gate, Or.inr (plan_eq_error hb hpb), rfl⟩
      | ok gatesB => exact absurd ⟨acyclic_of_plan ha hpa, acyclic_of_plan hb hpb⟩ hcyclic
  · intro hk hacyclicA hacyclicB
    obtain ⟨gatesA, hpa⟩ := exists_plan ha hacyclicA
    obtain ⟨gatesB, hpb⟩ := exists_plan hb hacyclicB
    refine ⟨_, ?_, verdict_of_plans ha hb hpa hpb rfl rfl⟩
    rw [firstDifference?_eq_stepwise, compareStepwise]
    simp only [if_neg hk.not_gt]
    exact compareFrom_of_plans hpa hpb

/-- The conjunction of two letters. -/
def conjunction : Circuit :=
  [Edit.addGate (.var 'a') {}, .addGate (.var 'b') {}, .addGate (.binary .and) {},
    .connect 0 2 0, .connect 1 2 1].foldl Edit.apply empty

/-- The joint denial of two letters, the second one a letter of the conjunction. -/
def denial : Circuit :=
  [Edit.addGate (.binary .nor) {}, .addGate (.var 'C') {}, .addGate (.var 'B') {},
    .connect 1 0 0, .connect 2 0 1].foldl Edit.apply empty

theorem firstDifference?_exact_conjunction_denial :
    (conjunction.WellFormed ∧ conjunction.Acyclic ∧
      ∀ l ∈ conjunction.registry.letters, l.isAlpha = true) ∧
    (denial.WellFormed ∧ denial.Acyclic ∧ ∀ l ∈ denial.registry.letters, l.isAlpha = true) ∧
    conjunction.ComparesExactly denial {} ∧
      conjunction.ComparesExactly denial { tableLetters := 2 } := by
  have hc : conjunction.Reachable := Reachable.empty.edits
    ⟨(by decide : 0 < idBound), (by decide : 1 < idBound), (by decide : 2 < idBound), trivial,
      trivial, trivial⟩
  have hd : denial.Reachable := Reachable.empty.edits
    ⟨(by decide : 0 < idBound), (by decide : 1 < idBound), (by decide : 2 < idBound), trivial,
      trivial, trivial⟩
  have hplanC : conjunction.plan = .ok ([0, 1, 2].filterMap conjunction.gate?) := by decide
  have hplanD : denial.plan = .ok ([1, 2, 0].filterMap denial.gate?) := by decide
  have halphaC : ∀ l ∈ conjunction.registry.letters, l.isAlpha = true :=
    List.all_eq_true.mp (by decide)
  have halphaD : ∀ l ∈ denial.registry.letters, l.isAlpha = true := List.all_eq_true.mp (by decide)
  exact ⟨⟨hc.wellFormed, acyclic_of_plan hc.wellFormed hplanC, halphaC⟩,
    ⟨hd.wellFormed, acyclic_of_plan hd.wellFormed hplanD, halphaD⟩,
    firstDifference?_exact hc.wellFormed hd.wellFormed halphaC halphaD {},
    firstDifference?_exact hc.wellFormed hd.wellFormed halphaC halphaD _⟩

end Circuit

end LogicCircuit
