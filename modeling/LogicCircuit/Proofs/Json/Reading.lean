import Mathlib
import LogicCircuit.Json.Printer
import LogicCircuit.Json.Reader

/-!
# Printed JSON reads back

What `Json.pretty` prints for a value, `Json.ofText?` reads as that value. A string or key that is
not text is printed as an empty one, and a number that is not an integer as a zero with a
fraction, so the values are those without any of these.

Results:
* `readString?_quoted`, `readNumber?_intDigits`: strings and integers are read up to their end.
* `readItems?_itemsChars`, `readMembers?_membersChars`: so are the items of an array and the
  members of an object, if each of their values is.
* `Textual.readsBack`, `ofText?_pretty`: a printed value is read as it was.
-/

namespace LogicCircuit.Json

open LogicCircuit.Text (Rune)

/-! ## Strings -/

theorem hexValue?_hexDigit (n : Nat) : hexValue? (some (hexDigit n)) = some (n % 16) := by
  have h : ∀ d < 16, hexValue? (some (Nat.digitChar d)) = some d := by decide
  exact h (n % 16) (Nat.mod_lt n (by decide))

/-- The digits that stand for a control character spell its number. -/
theorem hexValue4?_hexDigit {n : Nat} (h : n < 256) :
    hexValue4? (some '0') (some '0') (some (hexDigit (n / 16))) (some (hexDigit n)) = some n := by
  have h0 : hexValue? (some '0') = some 0 := by decide
  unfold hexValue4?
  rw [h0, hexValue?_hexDigit, hexValue?_hexDigit]
  refine congrArg some ?_
  show ((0 * 16 + 0) * 16 + n / 16 % 16) * 16 + n % 16 = n
  omega

/-- A code unit below the surrogates spells a character by itself. -/
theorem decodeUnits_code {n : Nat} (h : n < 0xD800) (units : List Unit16) :
    decodeUnits (.code n :: units) = (decodeUnits units).map (Char.ofNat n :: ·) := by
  have hhigh : isHighSurrogate n = false := by
    rw [isHighSurrogate, Bool.and_eq_false_iff, decide_eq_false_iff_not]
    omega
  have hlow : isLowSurrogate n = false := by
    rw [isLowSurrogate, Bool.and_eq_false_iff, decide_eq_false_iff_not]
    omega
  rw [decodeUnits.eq_def]
  simp only [hhigh, hlow, Bool.false_eq_true, if_false]

/-- A character that needs no escape is a piece of its own. -/
theorem units?_char {c : Char} (hc : ¬ c.toNat < 0x20) (hquote : c ≠ '"') (hslash : c ≠ '\\')
    (rest : List Rune) :
    units? (some c :: rest) = (units? rest).map fun (units, rest) => (.char c :: units, rest) := by
  rw [units?]
  · rw [if_neg (not_or.mpr ⟨hc, hslash⟩)]
    cases units? rest <;> rfl
  · exact hquote
  · exact fun _ _ _ _ _ _ h => hslash h
  · exact fun _ _ _ h => hslash h

/-- A character after a backslash is a piece that spells another one. -/
theorem units?_escape {e c : Char} (hu : e ≠ 'u') (he : escape? e = some c) (rest : List Rune) :
    units? (some '\\' :: some e :: rest) =
      (units? rest).map fun (units, rest) => (.char c :: units, rest) := by
  rw [units?]
  · rw [he, Option.bind_eq_bind, Option.bind_some]
    cases units? rest <;> rfl
  · exact fun _ _ _ _ _ _ h => hu h

/-- An escaped character is one piece of a string, and that piece spells the character. -/
theorem units?_escaped (c : Char) :
    ∃ u : Unit16, (∀ units, decodeUnits (u :: units) = (decodeUnits units).map (c :: ·)) ∧
      ∀ rest, units? ((escaped c).map some ++ rest) =
        (units? rest).map fun (units, rest) => (u :: units, rest) := by
  unfold escaped
  split
  case h_8 hquote hslash _ _ _ _ _ =>
    split_ifs with hc
    · refine ⟨.code c.toNat, fun units => ?_, fun rest => ?_⟩
      · rw [decodeUnits_code (by omega), Char.ofNat_toNat]
      · simp only [List.map_cons, List.map_nil, List.cons_append, List.nil_append, units?,
          hexValue4?_hexDigit (show c.toNat < 256 by omega)]
        cases units? rest <;> rfl
    · exact ⟨.char c, fun units => rfl, units?_char hc hquote hslash⟩
  all_goals exact ⟨.char _, fun units => rfl, units?_escape (by decide) rfl⟩

/-- Escaped text up to a quote is read up to it, and spells the text. -/
theorem units?_flatMap (text : List Char) (rest : List Rune) :
    ∃ units, units? ((text.flatMap escaped).map some ++ some '"' :: rest) = some (units, rest) ∧
      decodeUnits units = some text := by
  induction text with
  | nil => exact ⟨[], by simp [units?], rfl⟩
  | cons c text ih =>
    obtain ⟨units, hread, hspell⟩ := ih
    obtain ⟨u, hu, hc⟩ := units?_escaped c
    refine ⟨u :: units, ?_, by rw [hu, hspell]; rfl⟩
    rw [List.flatMap_cons, List.map_append, List.append_assoc, hc, hread]
    rfl

theorem readString?_quoted (text : String) (rest : List Rune) :
    ∃ inner : List Rune, (quoted (some text)).map some ++ rest = some '"' :: inner ∧
      readString? inner = some (some text, rest) := by
  obtain ⟨units, hread, hspell⟩ := units?_flatMap text.toList rest
  refine ⟨(text.toList.flatMap escaped).map some ++ some '"' :: rest, by simp [quoted], ?_⟩
  rw [readString?, hread, Option.map_some]
  dsimp only
  rw [hspell, Option.map_some, String.ofList_toList]

/-! ## Numbers -/

/-- What comes after a value: nothing, the next item or member, or the line of a closing
bracket. -/
inductive Ends : List Rune → Prop
  | nil : Ends []
  | comma (rest : List Rune) : Ends (some ',' :: rest)
  | line (rest : List Rune) : Ends (some '\n' :: rest)

theorem head?_natDigits_ne_zero {n : Nat} (h : 0 < n) : (natDigits n).head? ≠ some '0' := by
  unfold natDigits
  induction n using Nat.strong_induction_on with
  | _ n ih =>
    rcases Nat.lt_or_ge n 10 with hlt | hge
    · rw [Nat.toDigits_of_lt_base hlt]
      simp
      omega
    · rw [Nat.toDigits_of_base_le (by decide) hge, List.head?_append_of_ne_nil]
      · exact ih (n / 10) (by omega) (by omega)
      · exact Nat.toDigits_ne_nil

theorem exists_natDigits (n : Nat) : ∃ c digits, natDigits n = c :: digits ∧ c.isDigit = true := by
  obtain ⟨c, digits, h⟩ := List.exists_cons_of_ne_nil (Nat.toDigits_ne_nil (b := 10) (n := n))
  have hc : c ∈ Nat.toDigits 10 n := h ▸ List.mem_cons_self
  exact ⟨c, digits, h, Nat.isDigit_of_mem_toDigits (by decide) (by decide) hc⟩

theorem exists_intDigits (n : Int) :
    ∃ c digits, intDigits n = c :: digits ∧ (c = '-' ∨ c.isDigit = true) := by
  unfold intDigits
  split_ifs
  · exact ⟨'-', _, rfl, Or.inl rfl⟩
  · obtain ⟨c, digits, hd, hc⟩ := exists_natDigits n.natAbs
    exact ⟨c, digits, hd, Or.inr hc⟩

theorem isDigit_natDigits (n : Nat) : ∀ r ∈ (natDigits n).map some, isDigit r = true := by
  intro r hr
  obtain ⟨c, hc, rfl⟩ := List.mem_map.mp hr
  exact Nat.isDigit_of_mem_toDigits (by decide) (by decide) hc

theorem digits?_natDigits (n : Nat) {rest : List Rune} (h : Ends rest) :
    digits? ((natDigits n).map some ++ rest) = some ((natDigits n).map some, rest) := by
  have htake : rest.takeWhile isDigit = [] := by cases h <;> rfl
  have hdrop : rest.dropWhile isDigit = rest := by cases h <;> rfl
  unfold digits?
  rw [List.takeWhile_append_of_pos (isDigit_natDigits n),
    List.dropWhile_append_of_pos (isDigit_natDigits n), htake, hdrop, List.append_nil]
  split
  · rename_i hnil
    exact absurd (List.map_eq_nil_iff.mp hnil) Nat.toDigits_ne_nil
  · rfl

theorem digitsValue_natDigits (n : Nat) : digitsValue ((natDigits n).map some) = n := by
  have h := @Nat.ofDigitChars_ten_toDigits n
  rw [Nat.ofDigitChars_eq_foldl] at h
  unfold digitsValue natDigits
  rw [List.foldl_map]
  simpa [Nat.mul_comm] using h

theorem readUnsigned?_natDigits (negative : Bool) {n : Nat} (hn : negative = true → 0 < n)
    {rest : List Rune} (h : Ends rest) :
    readUnsigned? negative ((natDigits n).map some ++ rest) =
      some (integer (if negative then -n else n), rest) := by
  have hfraction : fraction? rest = some (false, rest) := by cases h <;> rfl
  have hexponent : exponent? rest = some (false, rest) := by cases h <;> rfl
  unfold readUnsigned?
  rw [digits?_natDigits n h]
  have hzero : ¬ (((natDigits n).map some).head? = some (some '0') ∧
      1 < ((natDigits n).map some).length) := by
    rw [List.head?_map, List.length_map]
    rintro ⟨hhead, hlen⟩
    rcases Nat.eq_zero_or_pos n with rfl | hpos
    · exact absurd hlen (by decide)
    · refine head?_natDigits_ne_zero hpos ?_
      simpa using hhead
  have hsign : (negative && n == 0) = false := by
    cases negative with
    | false => rfl
    | true => simpa using (hn rfl).ne'
  simp only [Option.bind_eq_bind, Option.bind_some]
  rw [if_neg hzero, hfraction]
  simp [hexponent, hsign, digitsValue_natDigits]

theorem readNumber?_intDigits (n : Int) {rest : List Rune} (h : Ends rest) :
    readNumber? ((intDigits n).map some ++ rest) = some (integer n, rest) := by
  unfold intDigits
  split_ifs with hn
  · show readUnsigned? true ((natDigits n.natAbs).map some ++ rest) = _
    rw [readUnsigned?_natDigits true (fun _ => by omega) h, if_pos rfl]
    exact congrArg (fun m => some (integer m, rest)) (by omega)
  · have hread : readNumber? ((natDigits n.natAbs).map some ++ rest) =
        readUnsigned? false ((natDigits n.natAbs).map some ++ rest) := by
      obtain ⟨c, digits, hd, hc⟩ := exists_natDigits n.natAbs
      rw [hd]
      unfold readNumber?
      split
      · rename_i heq
        cases heq
        cases hc
      · rfl
    rw [hread, readUnsigned?_natDigits false (by simp) h]
    exact congrArg (fun m => some (integer m, rest)) (by simp; omega)

/-! ## Blanks -/

theorem ends_newline (level : Nat) (rest : List Rune) : Ends ((newline level).map some ++ rest) :=
  .line _

@[simp] theorem skipSpace_newline (level : Nat) (rest : List Rune) :
    skipSpace ((newline level).map some ++ rest) = skipSpace rest := by
  unfold skipSpace
  rw [List.dropWhile_append_of_pos]
  intro r hr
  simp only [newline, List.map_cons, List.map_replicate, List.mem_cons, List.mem_replicate] at hr
  rcases hr with rfl | ⟨-, rfl⟩ <;> rfl

theorem readValue?_skipSpace (fuel : Nat) (s : List Rune) :
    readValue? fuel (skipSpace s) = readValue? fuel s := by
  cases fuel with
  | zero => rfl
  | succ fuel =>
    rw [readValue?, readValue?, skipSpace, skipSpace, List.dropWhile_idempotent]

theorem readItems?_skipSpace (fuel : Nat) (s : List Rune) :
    readItems? fuel (skipSpace s) = readItems? fuel s := by
  cases fuel with
  | zero => rfl
  | succ fuel => rw [readItems?, readItems?, readValue?_skipSpace]

@[simp] theorem readValue?_blank (fuel : Nat) (s : List Rune) :
    readValue? fuel (some ' ' :: s) = readValue? fuel s := by
  rw [← readValue?_skipSpace, ← readValue?_skipSpace fuel s]
  rfl

@[simp] theorem readItems?_newline (fuel level : Nat) (s : List Rune) :
    readItems? fuel ((newline level).map some ++ s) = readItems? fuel s := by
  rw [← readItems?_skipSpace, skipSpace_newline, readItems?_skipSpace]

@[simp] theorem readMembers?_newline (fuel level : Nat) (s : List Rune) :
    readMembers? fuel ((newline level).map some ++ s) = readMembers? fuel s := by
  cases fuel with
  | zero => rfl
  | succ fuel => rw [readMembers?, readMembers?, skipSpace_newline]

theorem readItems?_bracket (fuel : Nat) (s : List Rune) :
    readItems? fuel (some ']' :: s) = none := by
  match fuel with
  | 0 | 1 | _ + 2 => rfl

/-! ## Values -/

/-- The values that are printed in full: every number is an integer, and every string and key is
text. -/
inductive Textual : Json → Prop
  | null : Textual null
  | bool (b : Bool) : Textual (bool b)
  | integer (n : Int) : Textual (integer n)
  | string (text : String) : Textual (string (some text))
  | array {items : List Json} (h : ∀ j ∈ items, Textual j) : Textual (array items)
  | object {members : List (Option String × Json)} (hk : ∀ m ∈ members, m.1.isSome = true)
      (h : ∀ m ∈ members, Textual m.2) : Textual (object members)

/-- The printed value is read up to its end, with twice as much fuel as it has characters: on the
way to a value within it, a reading of items or members comes in between, but a bracket is
taken. -/
def ReadsBack (j : Json) : Prop :=
  ∀ (level fuel : Nat) (rest : List Rune), Ends rest → 2 * (chars level j).length ≤ fuel →
    readValue? fuel ((chars level j).map some ++ rest) = some (j, rest)

theorem length_chars_pos (level : Nat) (j : Json) : 0 < (chars level j).length := by
  cases j with
  | null => rw [chars]; decide
  | bool b => cases b <;> (rw [chars]; decide)
  | integer n =>
    obtain ⟨c, digits, hd, -⟩ := exists_intDigits n
    rw [chars, hd]
    simp
  | real => rw [chars]; decide
  | string text => rw [chars]; simp [quoted]
  | array items => cases items <;> (rw [chars]; simp)
  | object members => cases members <;> (rw [chars]; simp)

theorem readsBack_of_succ {j : Json}
    (h : ∀ (level fuel : Nat) (rest : List Rune), Ends rest →
      2 * (chars level j).length ≤ fuel + 1 →
      readValue? (fuel + 1) ((chars level j).map some ++ rest) = some (j, rest)) :
    ReadsBack j := by
  intro level fuel rest hr hf
  cases fuel with
  | zero =>
    have := length_chars_pos level j
    omega
  | succ fuel => exact h level fuel rest hr hf

/-- What begins with a minus or a digit is read as a number. -/
theorem readValue?_number {c : Char} (hc : c = '-' ∨ c.isDigit = true) (fuel : Nat)
    (s : List Rune) : readValue? (fuel + 1) (some c :: s) = readNumber? (some c :: s) := by
  have hspace : isSpace (some c) = false := by
    unfold isSpace
    rcases hc with rfl | hc
    · rfl
    · simp only [Bool.or_eq_false_iff, beq_eq_false_iff_ne, ne_eq, Option.some.injEq]
      refine ⟨⟨⟨?_, ?_⟩, ?_⟩, ?_⟩ <;> (rintro rfl; cases hc)
  have hskip : skipSpace (some c :: s) = some c :: s := by
    rw [skipSpace, List.dropWhile_cons_of_neg]
    simp [hspace]
  rw [readValue?, hskip]
  split
  case h_7 => rfl
  all_goals
    rename_i heq
    cases heq
    rcases hc with hc | hc <;> cases hc

theorem readsBack_integer (n : Int) : ReadsBack (integer n) := by
  refine readsBack_of_succ fun level fuel rest h _ => ?_
  obtain ⟨c, digits, hd, hc⟩ := exists_intDigits n
  rw [chars, ← readNumber?_intDigits n h, hd]
  exact readValue?_number hc fuel _

theorem readsBack_string (text : String) : ReadsBack (string (some text)) := by
  refine readsBack_of_succ fun level fuel rest _ _ => ?_
  obtain ⟨inner, hq, hread⟩ := readString?_quoted text rest
  rw [chars, hq]
  show (readString? inner).map (fun p => (string p.1, p.2)) = _
  rw [hread]
  rfl

/-! ## Arrays -/

theorem readItems?_last {fuel outer : Nat} {s rest : List Rune} {j : Json}
    (h : readValue? fuel s = some (j, (newline outer).map some ++ some ']' :: rest)) :
    readItems? (fuel + 1) s = some ([j], rest) := by
  rw [readItems?, h, Option.bind_eq_bind, Option.bind_some]
  dsimp only
  rw [skipSpace_newline]
  rfl

theorem readItems?_more {fuel : Nat} {s rest : List Rune} {j : Json}
    (h : readValue? fuel s = some (j, some ',' :: rest)) :
    readItems? (fuel + 1) s =
      (readItems? fuel rest).map fun (items, rest) => (j :: items, rest) := by
  rw [readItems?, h, Option.bind_eq_bind, Option.bind_some]
  show (readItems? fuel rest >>= fun p => pure (j :: p.1, p.2)) = _
  cases readItems? fuel rest <;> rfl

/-- The items of an array are read up to its end. -/
theorem readItems?_itemsChars {j : Json} {items : List Json} (h : ∀ i ∈ j :: items, ReadsBack i)
    (level outer fuel : Nat) (rest : List Rune)
    (hf : 2 * (chars level j ++ itemsChars level items).length < fuel) :
    readItems? fuel ((chars level j).map some ++ ((itemsChars level items).map some ++
      ((newline outer).map some ++ some ']' :: rest))) = some (j :: items, rest) := by
  induction items generalizing j fuel with
  | nil =>
    obtain ⟨fuel, rfl⟩ := Nat.exists_eq_succ_of_ne_zero (Nat.ne_zero_of_lt hf)
    rw [itemsChars, List.append_nil] at hf
    exact readItems?_last (h j List.mem_cons_self level fuel _ (ends_newline outer _) (by omega))
  | cons i items ih =>
    obtain ⟨fuel, rfl⟩ := Nat.exists_eq_succ_of_ne_zero (Nat.ne_zero_of_lt hf)
    rw [itemsChars] at hf ⊢
    simp only [List.map_append, List.map_cons, List.append_assoc, List.cons_append,
      List.length_append, List.length_cons] at hf ⊢
    rw [readItems?_more (h j List.mem_cons_self level fuel _ (.comma _) (by omega)),
      readItems?_newline, ih (fun k hk => h k (List.mem_cons_of_mem _ hk))]
    · rfl
    · rw [List.length_append]
      omega

theorem readValue?_array {fuel : Nat} {s rest : List Rune} {items : List Json}
    (h : readItems? fuel s = some (items, rest)) :
    readValue? (fuel + 1) (some '[' :: s) = some (array items, rest) := by
  rw [← readItems?_skipSpace] at h
  have hbracket : skipSpace (some '[' :: s) = some '[' :: s := rfl
  simp only [readValue?, hbracket]
  split
  · -- no item begins with a closing bracket
    rename_i heq
    rw [heq, readItems?_bracket] at h
    cases h
  · rw [h]
    rfl

theorem readsBack_array {items : List Json} (h : ∀ j ∈ items, ReadsBack j) :
    ReadsBack (array items) := by
  refine readsBack_of_succ fun level fuel rest _ hf => ?_
  cases items with
  | nil =>
    rw [chars]
    rfl
  | cons j items =>
    rw [chars] at hf ⊢
    simp only [List.map_append, List.map_cons, List.append_assoc, List.cons_append, List.map_nil,
      List.nil_append, List.length_append, List.length_cons, List.length_nil] at hf ⊢
    refine readValue?_array ?_
    rw [readItems?_newline]
    exact readItems?_itemsChars h (level + 1) level fuel rest (by rw [List.length_append]; omega)

/-! ## Objects -/

theorem readMembers?_last {fuel outer : Nat} {s rest : List Rune} {j : Json} (key : String)
    (h : readValue? fuel s = some (j, (newline outer).map some ++ some '\x7d' :: rest)) :
    readMembers? (fuel + 1) ((quoted (some key)).map some ++ some ':' :: some ' ' :: s) =
      some ([(some key, j)], rest) := by
  obtain ⟨inner, hq, hread⟩ := readString?_quoted key (some ':' :: some ' ' :: s)
  have hquote : skipSpace (some '"' :: inner) = some '"' :: inner := rfl
  have hcolon : skipSpace (some ':' :: some ' ' :: s) = some ':' :: some ' ' :: s := rfl
  have hbrace : skipSpace (some '\x7d' :: rest) = some '\x7d' :: rest := rfl
  rw [hq]
  simp only [readMembers?, hquote, hread, hcolon, readValue?_blank, h, skipSpace_newline, hbrace,
    Option.bind_eq_bind, Option.bind_some]
  rfl

theorem readMembers?_more {fuel : Nat} {s rest : List Rune} {j : Json} (key : String)
    (h : readValue? fuel s = some (j, some ',' :: rest)) :
    readMembers? (fuel + 1) ((quoted (some key)).map some ++ some ':' :: some ' ' :: s) =
      (readMembers? fuel rest).map fun (members, rest) => ((some key, j) :: members, rest) := by
  obtain ⟨inner, hq, hread⟩ := readString?_quoted key (some ':' :: some ' ' :: s)
  have hquote : skipSpace (some '"' :: inner) = some '"' :: inner := rfl
  have hcolon : skipSpace (some ':' :: some ' ' :: s) = some ':' :: some ' ' :: s := rfl
  have hcomma : skipSpace (some ',' :: rest) = some ',' :: rest := rfl
  rw [hq]
  simp only [readMembers?, hquote, hread, hcolon, readValue?_blank, h, hcomma, Option.bind_eq_bind,
    Option.bind_some]
  cases readMembers? fuel rest <;> rfl

/-- The members of an object are read up to its end. -/
theorem readMembers?_membersChars (key : String) {j : Json} {members : List (Option String × Json)}
    (hj : ReadsBack j) (hk : ∀ m ∈ members, m.1.isSome = true) (h : ∀ m ∈ members, ReadsBack m.2)
    (level outer fuel : Nat) (rest : List Rune)
    (hf : 2 * (chars level j ++ membersChars level members).length < fuel) :
    readMembers? fuel ((quoted (some key)).map some ++ some ':' :: some ' ' ::
      ((chars level j).map some ++ ((membersChars level members).map some ++
        ((newline outer).map some ++ some '\x7d' :: rest)))) =
      some ((some key, j) :: members, rest) := by
  induction members generalizing key j fuel with
  | nil =>
    obtain ⟨fuel, rfl⟩ := Nat.exists_eq_succ_of_ne_zero (Nat.ne_zero_of_lt hf)
    rw [membersChars, List.append_nil] at hf
    rw [membersChars, List.map_nil, List.nil_append]
    exact readMembers?_last key (hj level fuel _ (ends_newline outer _) (by omega))
  | cons m members ih =>
    obtain ⟨fuel, rfl⟩ := Nat.exists_eq_succ_of_ne_zero (Nat.ne_zero_of_lt hf)
    obtain ⟨key', i⟩ := m
    obtain ⟨key', rfl⟩ := Option.isSome_iff_exists.mp (hk _ List.mem_cons_self)
    rw [membersChars] at hf ⊢
    simp only [List.map_append, List.map_cons, List.append_assoc, List.cons_append,
      List.length_append, List.length_cons, List.nil_append] at hf ⊢
    rw [readMembers?_more key (hj level fuel _ (.comma _) (by omega)),
      readMembers?_newline, ih key' (h _ List.mem_cons_self)
      (fun k hm => hk k (List.mem_cons_of_mem _ hm)) (fun k hm => h k (List.mem_cons_of_mem _ hm))]
    · rfl
    · dsimp only
      rw [List.length_append]
      omega

theorem readsBack_object {members : List (Option String × Json)}
    (hk : ∀ m ∈ members, m.1.isSome = true) (h : ∀ m ∈ members, ReadsBack m.2) :
    ReadsBack (object members) := by
  refine readsBack_of_succ fun level fuel rest _ hf => ?_
  cases members with
  | nil =>
    rw [chars]
    rfl
  | cons m members =>
    obtain ⟨key, j⟩ := m
    obtain ⟨key, rfl⟩ := Option.isSome_iff_exists.mp (hk _ List.mem_cons_self)
    rw [chars] at hf ⊢
    simp only [List.map_append, List.map_cons, List.append_assoc, List.cons_append, List.map_nil,
      List.nil_append, List.length_append, List.length_cons, List.length_nil] at hf ⊢
    have hread := readMembers?_membersChars key (j := j) (h _ List.mem_cons_self)
      (fun k hm => hk k (List.mem_cons_of_mem _ hm)) (fun k hm => h k (List.mem_cons_of_mem _ hm))
      (level + 1) level fuel rest (by rw [List.length_append]; omega)
    -- the first member begins with a quote, so the object is not taken for an empty one
    obtain ⟨inner, hq, -⟩ := readString?_quoted key (some ':' :: some ' ' ::
      ((chars (level + 1) j).map some ++ ((membersChars (level + 1) members).map some ++
        ((newline level).map some ++ some '\x7d' :: rest))))
    rw [hq] at hread ⊢
    have hbrace : ∀ s, skipSpace (some '\x7b' :: s) = some '\x7b' :: s := fun _ => rfl
    have hquote : skipSpace (some '"' :: inner) = some '"' :: inner := rfl
    simp only [readValue?, hbrace, skipSpace_newline, hquote]
    show (readMembers? fuel (some '"' :: inner)).map (fun p => (object p.1, p.2)) = _
    rw [hread]
    rfl

/-! ## Whole texts -/

theorem Textual.readsBack {j : Json} (h : Textual j) : ReadsBack j := by
  induction h with
  | null => exact readsBack_of_succ fun _ _ _ _ _ => rfl
  | bool b => exact readsBack_of_succ fun _ _ _ _ _ => by cases b <;> rfl
  | integer n => exact readsBack_integer n
  | string text => exact readsBack_string text
  | array _ ih => exact readsBack_array ih
  | object hk _ ih => exact readsBack_object hk ih

/-- A printed value is read as it was. -/
theorem ofText?_pretty {j : Json} (h : Textual j) : ofText? j.pretty = some j := by
  have hread := h.readsBack 0 (2 * (chars 0 j).length + 2) [] .nil (by omega)
  unfold ofText? ofRunes? Text.runes pretty
  rw [List.append_nil] at hread
  rw [String.toList_ofList, List.length_map, hread]
  rfl

end LogicCircuit.Json
