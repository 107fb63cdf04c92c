import LogicCircuit.Proofs.Assignment.Digits
import LogicCircuit.Proofs.Assignment.Entries
import LogicCircuit.Proofs.Except

/-!
# What an assignment remembers of its history

An assignment comes about by changes, each of which sets a letter or unsets it. Of those that set a
letter, the ones behind its last unsetting stand: the last of them gives the bit, and the first of
them the place among the letters. An assignment that is built from the digits of a word has the same
entries as if its letters had been set one after the other, provided that they are different.

Results:
* `standing_concat_set`, `standing_concat_unset`: what one more change does to those that stand.
* `Tracks.apply`: what one more change does to an assignment that tracks its history.
* `fromBits?_eq`: the digits of a word are found without shifting too far.
* `remembers_history`: every assignment tracks its history, and is given back by its entries.
-/

namespace LogicCircuit.Assignment

/-! ## Changes and those that stand -/

/-- A change of an assignment. -/
inductive Change where
  | set (letter : Char) (bit : Bool)
  | unset (letter : Char)
  deriving DecidableEq, Repr

/-- Carry a change out. -/
def Change.apply (s : Assignment) : Change → Assignment
  | set letter bit => s.set letter bit
  | unset letter => s.unset letter

/-- The numbers of the changes that set the letter, in either case, and behind which it is not
unset. -/
def standing (history : List Change) (l : Char) : Set Nat :=
  {t | (∃ m b, history[t]? = some (.set m b) ∧ m.toUpper = l.toUpper) ∧
    ∀ u m, t < u → history[u]? = some (.unset m) → m.toUpper ≠ l.toUpper}

/-- The last change that stands for the letter gives it the bit. -/
def LastBit (history : List Change) (l : Char) (b : Bool) : Prop :=
  ∃ t m, IsGreatest (standing history l) t ∧ history[t]? = some (.set m b)

/-- The first change that stands for the one letter comes before the first one that stands for the
other. -/
def Earlier (history : List Change) (k l : Char) : Prop :=
  ∃ t u, IsLeast (standing history k) t ∧ IsLeast (standing history l) u ∧ t < u

/-! ## One more change -/

variable {history : List Change} {c : Change} {k l : Char} {b : Bool} {t : Nat}

theorem lt_length_of_mem_standing (h : t ∈ standing history l) : t < history.length := by
  obtain ⟨⟨m, b, ht, -⟩, -⟩ := h
  exact (List.getElem?_eq_some_iff.mp ht).1

theorem mem_standing_concat : t ∈ standing (history ++ [c]) l ↔
    (t ∈ standing history l ∧ ∀ m, c = .unset m → m.toUpper ≠ l.toUpper) ∨
      (t = history.length ∧ ∃ m b, c = .set m b ∧ m.toUpper = l.toUpper) := by
  have hold : ∀ {u d}, u < history.length →
      ((history ++ [c])[u]? = some d ↔ history[u]? = some d) :=
    fun hu => by rw [List.getElem?_append_left hu]
  have hnew : ∀ {u d}, (history ++ [c])[u]? = some d → history.length ≤ u →
      u = history.length ∧ c = d := by
    intro u d hd hu
    have hlt := (List.getElem?_eq_some_iff.mp hd).1
    rw [List.length_append, List.length_singleton] at hlt
    obtain rfl : u = history.length := by omega
    exact ⟨rfl, Option.some.inj (List.getElem?_concat_length.symm.trans hd)⟩
  constructor
  · rintro ⟨⟨m, b, ht, hm⟩, hkept⟩
    rcases Nat.lt_or_ge t history.length with hlt | hge
    · refine Or.inl ⟨⟨⟨m, b, (hold hlt).mp ht, hm⟩, fun u m' htu hu => ?_⟩, fun m' hc => ?_⟩
      · exact hkept u m' htu ((hold (List.getElem?_eq_some_iff.mp hu).1).mpr hu)
      · exact hkept history.length m' hlt (hc ▸ List.getElem?_concat_length)
    · obtain ⟨rfl, hc⟩ := hnew ht hge
      exact Or.inr ⟨rfl, m, b, hc, hm⟩
  · rintro (⟨hmem, hc⟩ | ⟨rfl, m, b, rfl, hm⟩)
    · have hlt := lt_length_of_mem_standing hmem
      obtain ⟨⟨m, b, ht, hm⟩, hkept⟩ := hmem
      refine ⟨⟨m, b, (hold hlt).mpr ht, hm⟩, fun u m' htu hu => ?_⟩
      rcases Nat.lt_or_ge u history.length with hlt' | hge
      · exact hkept u m' htu ((hold hlt').mp hu)
      · exact hc m' (hnew hu hge).2
    · refine ⟨⟨m, b, List.getElem?_concat_length, hm⟩, fun u m' htu hu => ?_⟩
      obtain ⟨rfl, -⟩ := hnew hu htu.le
      exact absurd htu (lt_irrefl _)

/-- Setting a letter stands for it and for no other one. -/
theorem standing_concat_set (history : List Change) (m l : Char) (b : Bool) :
    standing (history ++ [.set m b]) l =
      if l.toUpper = m.toUpper then insert history.length (standing history l)
      else standing history l := by
  ext t
  rw [mem_standing_concat]
  split_ifs with h
  · simp [h, or_comm]
  · simp [Ne.symm h]

/-- Behind its unsetting nothing stands for a letter. -/
theorem standing_concat_unset (history : List Change) (m l : Char) :
    standing (history ++ [.unset m]) l =
      if l.toUpper = m.toUpper then ∅ else standing history l := by
  ext t
  rw [mem_standing_concat]
  split_ifs with h
  · simp [h]
  · simp [Ne.symm h]

theorem lastBit_concat (h : standing (history ++ [c]) l = standing history l) :
    LastBit (history ++ [c]) l b ↔ LastBit history l b := by
  refine exists_congr fun t => exists_congr fun m => ?_
  rw [h]
  refine and_congr_right fun ht => ?_
  rw [List.getElem?_append_left (lt_length_of_mem_standing ht.1)]

theorem lastBit_concat_set {m : Char} {d : Bool} (h : l.toUpper = m.toUpper) :
    LastBit (history ++ [.set m d]) l b ↔ d = b := by
  have hgreatest : IsGreatest (standing (history ++ [.set m d]) l) history.length := by
    rw [standing_concat_set, if_pos h]
    refine ⟨Set.mem_insert _ _, fun t ht => ?_⟩
    rcases ht with rfl | ht
    · exact le_rfl
    · exact (lt_length_of_mem_standing ht).le
  constructor
  · rintro ⟨t, m', ht, hset⟩
    obtain rfl := ht.unique hgreatest
    rw [List.getElem?_concat_length] at hset
    cases hset
    rfl
  · rintro rfl
    exact ⟨_, m, hgreatest, List.getElem?_concat_length⟩

theorem not_lastBit_of_empty (h : standing history l = ∅) : ¬ LastBit history l b := by
  rintro ⟨t, -, ht, -⟩
  exact Set.notMem_empty t (h ▸ ht.1)

theorem exists_isLeast (h : (standing history l).Nonempty) :
    ∃ t, IsLeast (standing history l) t :=
  ⟨sInf (standing history l), Nat.sInf_mem h, fun _ ht => Nat.sInf_le ht⟩

/-- Setting a letter again does not change when it was set first. -/
theorem isLeast_concat_set (h : IsLeast (standing history l) t) (m : Char) (b : Bool) :
    IsLeast (standing (history ++ [.set m b]) l) t := by
  rw [standing_concat_set]
  split_ifs
  · refine ⟨Set.mem_insert_of_mem _ h.1, fun u hu => ?_⟩
    rcases hu with rfl | hu
    · exact (lt_length_of_mem_standing h.1).le
    · exact h.2 hu
  · exact h

theorem Earlier.concat_set (h : Earlier history k l) (m : Char) (b : Bool) :
    Earlier (history ++ [.set m b]) k l := by
  obtain ⟨t, u, ht, hu, hlt⟩ := h
  exact ⟨t, u, isLeast_concat_set ht m b, isLeast_concat_set hu m b, hlt⟩

theorem earlier_concat_set {m : Char} (hk : (standing history k).Nonempty)
    (hm : standing history m.toUpper = ∅) (b : Bool) :
    Earlier (history ++ [.set m b]) k m.toUpper := by
  obtain ⟨t, ht⟩ := exists_isLeast hk
  refine ⟨t, history.length, isLeast_concat_set ht m b, ?_, lt_length_of_mem_standing ht.1⟩
  rw [standing_concat_set, if_pos (Char.toUpper_toUpper_eq_toUpper m), hm, insert_empty_eq]
  exact isLeast_singleton

/-! ## Assignments that track their history -/

/-- An assignment tells for each letter the last bit that stands, and lists the letters in the order
of the first. -/
structure Tracks (s : Assignment) (history : List Change) : Prop where
  unrepeated : s.Unrepeated
  bit : ∀ l b, s.get? l = some b ↔ LastBit history l b
  unassigned : ∀ l, s.get? l = none ↔ standing history l = ∅
  order : s.letters.Pairwise (Earlier history)

namespace Tracks

variable {s : Assignment}

theorem nonempty_iff (h : s.Tracks history) :
    (standing history l).Nonempty ↔ l.toUpper ∈ s.letters := by
  rw [Set.nonempty_iff_ne_empty, Ne, ← h.unassigned, get?_eq_none_iff, not_not]

theorem empty : Tracks {} [] where
  unrepeated := ⟨by simp [letters, toList], by simp [letters, toList]⟩
  bit l b := by
    have hempty : standing [] l = ∅ := by simp [standing]
    simp [not_lastBit_of_empty hempty]
  unassigned l := by simp [standing]
  order := by simp [letters, toList]

theorem set (h : s.Tracks history) (m : Char) (b : Bool) :
    (s.set m b).Tracks (history ++ [.set m b]) where
  unrepeated := h.unrepeated.set m b
  bit l d := by
    rw [get?_set]
    by_cases hl : l.toUpper = m.toUpper
    · rw [if_pos hl, lastBit_concat_set hl, Option.some.injEq]
    · rw [if_neg hl, lastBit_concat (by rw [standing_concat_set, if_neg hl]), h.bit]
  unassigned l := by
    rw [get?_set, standing_concat_set]
    by_cases hl : l.toUpper = m.toUpper
    · rw [if_pos hl, if_pos hl]
      simp [(Set.insert_nonempty _ _).ne_empty]
    · rw [if_neg hl, if_neg hl, h.unassigned]
  order := by
    have hold : s.letters.Pairwise (Earlier (history ++ [.set m b])) :=
      h.order.imp fun hkl => hkl.concat_set m b
    rw [letters_set]
    split_ifs with hmem
    · exact hold
    · refine List.pairwise_append.mpr ⟨hold, List.pairwise_singleton _ _, fun k hk l hl => ?_⟩
      obtain rfl := List.mem_singleton.mp hl
      refine earlier_concat_set (h.nonempty_iff.mpr ?_) ((h.unassigned _).mp ?_) b
      · rwa [h.unrepeated.upper k hk]
      · rwa [get?_eq_none_iff, Char.toUpper_toUpper_eq_toUpper]

theorem unset (h : s.Tracks history) (m : Char) :
    (s.unset m).Tracks (history ++ [.unset m]) where
  unrepeated := h.unrepeated.unset m
  bit l d := by
    rw [get?_unset]
    by_cases hl : l.toUpper = m.toUpper
    · have hempty : standing (history ++ [.unset m]) l = ∅ := by
        rw [standing_concat_unset, if_pos hl]
      simp [hl, not_lastBit_of_empty hempty]
    · rw [if_neg hl, lastBit_concat (by rw [standing_concat_unset, if_neg hl]), h.bit]
  unassigned l := by
    rw [get?_unset, standing_concat_unset]
    by_cases hl : l.toUpper = m.toUpper
    · rw [if_pos hl, if_pos hl]
      simp
    · rw [if_neg hl, if_neg hl, h.unassigned]
  order := by
    rw [letters_unset]
    refine (h.order.filter _).imp_of_mem fun hk hl hkl => ?_
    have hne : ∀ k ∈ s.letters.filter (· ≠ m.toUpper), k.toUpper ≠ m.toUpper := by
      intro k hk
      obtain ⟨hmem, hk⟩ := List.mem_filter.mp hk
      rw [h.unrepeated.upper k hmem]
      exact of_decide_eq_true hk
    rw [Earlier, standing_concat_unset, standing_concat_unset, if_neg (hne _ hk), if_neg (hne _ hl)]
    exact hkl

theorem apply (h : s.Tracks history) (c : Change) : (c.apply s).Tracks (history ++ [c]) := by
  cases c with
  | set m b => exact h.set m b
  | unset m => exact h.unset m

theorem foldl (h : s.Tracks history) (changes : List Change) :
    (changes.foldl Change.apply s).Tracks (history ++ changes) := by
  induction changes generalizing s history with
  | nil => rwa [List.append_nil]
  | cons c changes ih =>
    rw [List.foldl_cons, List.append_cons]
    exact ih (h.apply c)

end Tracks

/-! ## Digits of a word -/

/-- The digit of a word for a letter, given by its number among so many letters. A number that is
too large, and a shift by the width of the word or more, are failures. -/
def digitFor? (bits : BitVec 64) (count i : Nat) : Option Bool :=
  if i < count ∧ count - 1 - i < 64 then
    some ((bits >>> (count - 1 - i)) &&& 1#64 != 0#64)
  else none

/-- The entry of a letter, given with its number among so many letters. -/
def entryFor? (bits : BitVec 64) (count : Nat) (e : Char × Nat) : Option (Char × Bool) :=
  (digitFor? bits count e.2).map (e.1.toUpper, ·)

/-- Give the letters the digits of a word, the first letter the highest one. -/
def fromBits? (letters : List Char) (bits : BitVec 64) : Option Assignment :=
  (letters.zipIdx.mapM (entryFor? bits letters.length)).map fun entries => ⟨entries⟩

theorem digitEntries_eq (letters : List Char) (n i : Nat) :
    digitEntries letters n = (letters.zipIdx i).map fun e =>
      (e.1.toUpper, n.testBit (i + letters.length - 1 - e.2)) := by
  induction letters generalizing i with
  | nil => rfl
  | cons letter rest ih =>
    have hfirst : i + (rest.length + 1) - 1 - i = rest.length := by omega
    have hshift : i + 1 + rest.length = i + (rest.length + 1) := by omega
    rw [digitEntries, List.zipIdx_cons, List.map_cons, ih (i + 1), List.length_cons, hfirst, hshift]

theorem digitFor?_eq (bits : BitVec 64) {count i : Nat} (hi : i < count) (h : count ≤ 64) :
    digitFor? bits count i = some (bits.toNat.testBit (count - 1 - i)) := by
  rw [digitFor?, if_pos ⟨hi, by omega⟩, BitVec.and_one_eq_setWidth_ofBool_getLsbD,
    BitVec.getLsbD_ushiftRight, Nat.add_zero, BitVec.testBit_toNat]
  cases bits.getLsbD (count - 1 - i) <;> rfl

/-- Up to 64 letters no digit is out of reach. -/
theorem fromBits?_eq {letters : List Char} (h : letters.length ≤ 64) (bits : BitVec 64) :
    fromBits? letters bits = some (ofDigits letters bits.toNat) := by
  have hread : ∀ e ∈ letters.zipIdx, entryFor? bits letters.length (id e) =
      some (e.1.toUpper, bits.toNat.testBit (letters.length - 1 - e.2)) := by
    intro e he
    have hlt : e.2 < letters.length := by simpa using List.snd_lt_of_mem_zipIdx he
    rw [id, entryFor?, digitFor?_eq bits hlt h]
    rfl
  have hentries := mapM_map_eq_some hread
  rw [List.map_id] at hentries
  rw [fromBits?, hentries, ofDigits, digitEntries_eq letters bits.toNat 0, Nat.zero_add]
  rfl

/-! ## Histories -/

/-- The assignments that a history may begin with, and the changes that amount to them. -/
inductive Begins : Assignment → List Change → Prop
  /-- No letter is assigned. -/
  | empty : Begins {} []
  /-- Pairs are collected, a later one over an earlier one of the same letter. -/
  | collected (pairs : List (Char × Bool)) :
      Begins (ofList pairs) (pairs.map fun e => .set e.1 e.2)
  /-- Different letters have the digits of a word, the first letter the highest one. -/
  | digits (letters : List Char) (bits : BitVec 64) (hlength : letters.length ≤ 64)
      (hdistinct : (letters.map Char.toUpper).Nodup) :
      Begins (ofDigits letters bits.toNat) (letters.zipIdx.map fun e =>
        .set e.1 (bits.getLsbD (letters.length - 1 - e.2)))

/-- Setting different letters one after the other gives them the digits of a number. -/
theorem foldl_set_digits {letters : List Char} (h : (letters.map Char.toUpper).Nodup) (n : Nat) :
    (letters.zipIdx.map fun e => Change.set e.1 (n.testBit (letters.length - 1 - e.2))).foldl
      Change.apply {} = ofDigits letters n := by
  have hletters : (ofDigits letters n).letters = letters.map Char.toUpper :=
    map_fst_digitEntries letters n
  have hentries : (ofDigits letters n).toList = letters.zipIdx.map fun e =>
      (e.1.toUpper, n.testBit (letters.length - 1 - e.2)) := by
    rw [toList, ofDigits, digitEntries_eq letters n 0, Nat.zero_add]
  have hunrepeated : (ofDigits letters n).Unrepeated := by
    refine ⟨fun l hl => ?_, hletters ▸ h⟩
    rw [hletters] at hl
    obtain ⟨m, -, rfl⟩ := List.mem_map.mp hl
    exact Char.toUpper_toUpper_eq_toUpper m
  rw [← hunrepeated.ofList_toList, hentries, ofList, List.foldl_map, List.foldl_map]
  congr 1
  funext s e
  rw [Change.apply, set, set, Char.toUpper_toUpper_eq_toUpper]

theorem Begins.tracks {s : Assignment} (h : Begins s history) : s.Tracks history := by
  suffices hrun : history.foldl Change.apply {} = s from hrun ▸ Tracks.empty.foldl history
  cases h with
  | empty => rfl
  | collected pairs => rw [ofList, List.foldl_map]; rfl
  | digits letters bits _ hdistinct =>
    simp only [← BitVec.testBit_toNat]
    exact foldl_set_digits hdistinct bits.toNat

/-- An assignment tracks its history, has as many entries as there are letters for which a change
stands, and is given back by its entries. -/
structure Remembers (s : Assignment) (history : List Change) : Prop extends s.Tracks history where
  entries : ∀ l b, (l, b) ∈ s.toList ↔ l.toUpper = l ∧ LastBit history l b
  size : s.size = {l : Char | l.toUpper = l ∧ (standing history l).Nonempty}.ncard
  collected : ofList s.toList = s

theorem Tracks.remembers {s : Assignment} (h : s.Tracks history) : s.Remembers history where
  toTracks := h
  entries l b := by rw [h.unrepeated.mem_toList, h.bit]
  size := by
    have hset :
        {l : Char | l.toUpper = l ∧ (standing history l).Nonempty} = s.letters.toFinset := by
      ext l
      rw [Set.mem_ofPred_eq, h.nonempty_iff, Finset.mem_coe, List.mem_toFinset]
      constructor
      · rintro ⟨hl, hmem⟩
        rwa [hl] at hmem
      · intro hmem
        have hl := h.unrepeated.upper l hmem
        exact ⟨hl, by rwa [hl]⟩
    rw [hset, Set.ncard_coe_finset, List.toFinset_card_of_nodup h.unrepeated.nodup, letters,
      List.length_map]
    rfl
  collected := h.unrepeated.ofList_toList

/-- Whatever an assignment begins with and however it is changed, it remembers its history; and it
can begin with the digits of any word. -/
theorem remembers_history :
    (∀ s history, Begins s history → ∀ changes : List Change,
      (changes.foldl Change.apply s).Remembers (history ++ changes)) ∧
    ∀ (letters : List Char) (bits : BitVec 64), letters.length ≤ 64 →
      fromBits? letters bits = some (ofDigits letters bits.toNat) :=
  ⟨fun _ _ h changes => (h.tracks.foldl changes).remembers, fun _ bits h => fromBits?_eq h bits⟩

/-- Two letters begin with the digits of 2; one of them is unset and set again, behind a letter that
is new. -/
theorem remembers_history_reset :
    Begins (ofDigits ['b', 'A'] 2) [.set 'b' true, .set 'A' false] ∧
      Remembers ⟨[('A', true), ('C', false), ('B', false)]⟩ [.set 'b' true, .set 'A' false,
        .unset 'B', .set 'c' false, .set 'a' true, .set 'b' false] ∧
      fromBits? ['b', 'A'] 2#64 = some (ofDigits ['b', 'A'] 2) := by
  have hbegins : Begins (ofDigits ['b', 'A'] 2) [.set 'b' true, .set 'A' false] :=
    .digits ['b', 'A'] 2#64 (by decide) (by decide)
  exact ⟨hbegins, remembers_history.1 _ _ hbegins
    [.unset 'B', .set 'c' false, .set 'a' true, .set 'b' false],
    remembers_history.2 ['b', 'A'] 2#64 (by decide)⟩

end LogicCircuit.Assignment
