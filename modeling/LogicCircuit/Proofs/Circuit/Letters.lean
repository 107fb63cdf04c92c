import LogicCircuit.Equivalence
import LogicCircuit.Proofs.Circuit.WellFormed

/-!
# The letters of a circuit

The letters of a circuit are capitals, each listed once; those of two circuits together as well.
If they all belong to the alphabet, there are at most as many as the alphabet has.

Results:
* `WellFormed.toUpper_letters`, `nodup_letters`: every letter is stored as a capital, and once.
* `commonLetters_eq`: the letters of two circuits, those of the first one first.
* `length_le_of_isAlpha`: how many letters there can be.
-/

namespace LogicCircuit

theorem nodup_eraseDups {α : Type} [DecidableEq α] (l : List α) : l.eraseDups.Nodup := by
  induction hl : l.length using Nat.strong_induction_on generalizing l with
  | _ n ih =>
    cases l with
    | nil => simp
    | cons a l =>
      rw [List.eraseDups_cons, List.nodup_cons, List.mem_eraseDups]
      refine ⟨by simp, ih _ ?_ _ rfl⟩
      rw [← hl, List.length_cons]
      exact Nat.lt_succ_of_le (List.length_filter_le _ _)

theorem eraseDups_eq_self {α : Type} [DecidableEq α] {l : List α} (h : l.Nodup) :
    l.eraseDups = l := by
  induction l with
  | nil => rfl
  | cons a l ih =>
    have hne : l.filter (fun b => !b == a) = l := by
      rw [List.filter_eq_self]
      intro b hb
      have : b ≠ a := fun he => (List.nodup_cons.mp h).1 (he ▸ hb)
      simpa using this
    rw [List.eraseDups_cons, hne, ih (List.nodup_cons.mp h).2]

/-- Capitals of the alphabet, each listed once, are at most as many as it has. -/
theorem length_le_of_isAlpha {letters : List Char} (hn : letters.Nodup)
    (hu : ∀ l ∈ letters, l.toUpper = l) (ha : ∀ l ∈ letters, l.isAlpha = true) :
    letters.length ≤ 26 := by
  have hsub : letters.map Char.toNat ⊆ List.range' 65 26 := by
    intro n hmem
    obtain ⟨l, hl, rfl⟩ := List.mem_map.mp hmem
    have hup : l.isUpper = true := by
      have := l.isUpper_toUpper_eq_isAlpha
      rwa [hu l hl, ha l hl] at this
    simp only [Char.isUpper, decide_eq_true_eq, ge_iff_le, UInt32.le_iff_toNat_le] at hup
    rw [List.mem_range'_1]
    exact ⟨hup.1, Nat.lt_succ_of_le hup.2⟩
  have hnd : (letters.map Char.toNat).Nodup := hn.map fun _ _ => Char.toNat_inj.mp
  simpa using (List.subperm_of_subset hnd hsub).length_le

namespace Circuit

theorem mem_letters {c : Circuit} {letter : Char} :
    letter ∈ c.letters ↔ ∃ g ∈ c.gates, g.kind = .var letter := by
  simp only [letters, List.mem_eraseDups, List.mem_filterMap]
  refine exists_congr fun g => and_congr_right fun _ => ?_
  cases g.kind <;> simp [GateKind.letter?]

theorem nodup_letters (c : Circuit) : c.letters.Nodup := nodup_eraseDups _

theorem nodup_commonLetters (a b : Circuit) : (a.commonLetters b).Nodup := nodup_eraseDups _

/-- The letters of two circuits are those of the first one, then those that only the second one
has. -/
theorem commonLetters_eq (a b : Circuit) :
    a.commonLetters b = a.letters ++ b.letters.filter (fun l => !a.letters.contains l) := by
  unfold commonLetters mergeLetters
  rw [List.eraseDups_append, eraseDups_eq_self a.nodup_letters]
  exact congrArg (a.letters ++ ·) (eraseDups_eq_self (b.nodup_letters.filter _))

theorem mem_commonLetters {a b : Circuit} {letter : Char} :
    letter ∈ a.commonLetters b ↔ letter ∈ a.letters ∨ letter ∈ b.letters := mem_mergeLetters

/-- Every letter is stored as a capital. -/
theorem WellFormed.toUpper_letters {c : Circuit} (hc : c.WellFormed) :
    ∀ l ∈ c.letters, l.toUpper = l := by
  intro l hl
  obtain ⟨g, hg, hk⟩ := mem_letters.mp hl
  have hn := hc.normalized g hg
  rw [hk] at hn
  simpa [GateKind.normalized] using hn

theorem WellFormed.toUpper_commonLetters {a b : Circuit} (ha : a.WellFormed) (hb : b.WellFormed) :
    ∀ l ∈ a.commonLetters b, l.toUpper = l := by
  intro l hl
  rcases mem_commonLetters.mp hl with hl | hl
  · exact ha.toUpper_letters l hl
  · exact hb.toUpper_letters l hl

end Circuit

end LogicCircuit
