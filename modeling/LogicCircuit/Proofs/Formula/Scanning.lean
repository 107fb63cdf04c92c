import Mathlib
import LogicCircuit.Formula.Lexer

/-!
# How the pieces of a formula are scanned

A piece of a formula is a letter, a mark of negation, a parenthesis, an operator or a blank. What
comes of a piece does not depend on what follows it, with one exception: a letter that is followed
by a capital may be the beginning of a keyword.

Results:
* `spelling_letter`, `spelling_glyph`, `spelling_keyword` and their like: the canonical symbols of
  each piece.
* `scan_letter`, `scan_keyword`, `scan_lparen` and their like: the effect of each piece on the
  tokens.
-/

namespace LogicCircuit.Formula

/-! ## The characters of formulas -/

/-- The glyphs of an operator. -/
def glyphs : Operator → List Char
  | .xor => ['⊕', '⊖', '⊗']
  | .xnor => ['⊙']
  | .and => ['⋅', '·', '*', '.', '∧']
  | .or => ['+', '∨']
  | .nand | .nor => []

/-- The marks of a negation in front of its operand. -/
def marksBefore : List Char := ['¬', '~', '!']

/-- The marks of a negation behind its operand. -/
def marksBehind : List Char := ['\'', '′', '’', '\u0304', '\u0305']

theorem mem_glyphs {c : Char} {op : Operator} :
    Symbol.operator? c = some op ↔ c ∈ glyphs op := by
  unfold Symbol.operator?
  constructor
  · intro h
    split at h <;> cases h <;> decide
  · intro h
    cases op <;> simp [glyphs] at h <;> rcases h with rfl | rfl | rfl | rfl | rfl <;> rfl

theorem isNegation_iff {c : Char} : Symbol.isNegation c = true ↔ c ∈ marksBefore := by
  simp [Symbol.isNegation, marksBefore, or_assoc]

theorem isPrime_iff {c : Char} : Symbol.isPrime c = true ↔ c ∈ marksBehind := by
  unfold Symbol.isPrime Symbol.prime marksBehind
  simp only [Bool.or_eq_true, decide_eq_true_eq, List.mem_cons, List.not_mem_nil, or_false,
    or_assoc]

theorem isCapital_iff {c : Char} : isCapital c = true ↔ 65 ≤ c.toNat ∧ c.toNat ≤ 90 := by
  simp [isCapital, Char.le_def, UInt32.le_iff_toNat_le]

theorem isUpper_of_isCapital {c : Char} (h : isCapital c = true) : c.isUpper = true := by
  rw [isCapital_iff] at h
  simpa [Char.isUpper, UInt32.le_iff_toNat_le] using h

theorem toUpper_of_isCapital {c : Char} (h : isCapital c = true) : c.toUpper = c :=
  Char.toUpper_eq_of_not_isLower (Char.not_isLower_of_isUpper (isUpper_of_isCapital h))

theorem isBlank_eq_false {c : Char} (h : isCapital c = true) : Text.isBlank c = false := by
  rw [isCapital_iff] at h
  simp only [Text.isBlank, Bool.or_eq_false_iff, Bool.and_eq_false_iff, beq_eq_false_iff_ne,
    decide_eq_false_iff_not]
  omega

theorem isCapital_eq_false {b : Char} (h : Text.isBlank b = true) : isCapital b = false := by
  cases hc : isCapital b with
  | false => rfl
  | true =>
    rw [isBlank_eq_false hc] at h
    cases h

/-- The characters that are spelled by others. -/
def specials : List Char := Operator.all.flatMap glyphs ++ marksBefore ++ marksBehind

theorem not_of_mem_specials {c : Char} (h : c ∈ specials) :
    isCapital c.toUpper = false ∧ Text.isBlank c = false := by
  have hall : specials.all (fun c => !isCapital c.toUpper && !Text.isBlank c) = true := by
    decide +kernel
  simpa using List.all_eq_true.mp hall c h

/-! ## Their canonical spelling -/

theorem spelling_glyph {g : Char} {op : Operator} (h : g ∈ glyphs op) :
    Symbol.spelling g = ' ' :: op.letters ++ [' '] := by
  unfold Symbol.spelling
  rw [mem_glyphs.mpr h]

theorem spelling_before {m : Char} (h : m ∈ marksBefore) : Symbol.spelling m = ['!'] := by
  simp only [marksBefore, List.mem_cons, List.not_mem_nil, or_false] at h
  rcases h with rfl | rfl | rfl <;> rfl

theorem spelling_behind {m : Char} (h : m ∈ marksBehind) : Symbol.spelling m = [Symbol.prime] := by
  simp only [marksBehind, List.mem_cons, List.not_mem_nil, or_false] at h
  rcases h with rfl | rfl | rfl | rfl | rfl <;> rfl

theorem spelling_other {c : Char} (h : c ∉ specials) : Symbol.spelling c = [c.toUpper] := by
  simp only [specials, List.mem_append, not_or, List.mem_flatMap, not_exists, not_and] at h
  obtain ⟨⟨hop, hb⟩, hp⟩ := h
  have hnone : Symbol.operator? c = none := by
    rw [Option.eq_none_iff_forall_ne_some]
    exact fun op ho => hop op op.mem_all (mem_glyphs.mp ho)
  unfold Symbol.spelling
  rw [hnone]
  simp only [mt isNegation_iff.mp hb, mt isPrime_iff.mp hp]
  rfl

theorem spelling_letter {c : Char} (h : isCapital c.toUpper = true) :
    Symbol.spelling c = [c.toUpper] := by
  refine spelling_other fun hmem => ?_
  rw [(not_of_mem_specials hmem).1] at h
  cases h

theorem toUpper_of_isBlank {b : Char} (h : Text.isBlank b = true) : b.toUpper = b := by
  refine Char.toUpper_eq_of_not_isLower fun hl => ?_
  simp only [Char.isLower, Bool.and_eq_true, decide_eq_true_eq, UInt32.le_iff_toNat_le] at hl
  have ha : 97 ≤ b.toNat := hl.1
  have hz : b.toNat ≤ 122 := hl.2
  simp only [Text.isBlank, Bool.or_eq_true, Bool.and_eq_true, beq_iff_eq, decide_eq_true_eq] at h
  omega

theorem spelling_blank {b : Char} (h : Text.isBlank b = true) : Symbol.spelling b = [b] := by
  rw [spelling_other, toUpper_of_isBlank h]
  intro hmem
  rw [(not_of_mem_specials hmem).2] at h
  cases h

theorem isCapital_of_mem_letters {op : Operator} {c : Char} (h : c ∈ op.letters) :
    isCapital c = true := by
  have hall : op.letters.all isCapital = true := by cases op <;> decide +kernel
  exact List.all_eq_true.mp hall c h

theorem spelling_keyword {k : List Char} {op : Operator} (h : k.map Char.toUpper = op.letters) :
    k.flatMap Symbol.spelling = op.letters := by
  have hall : ∀ c ∈ k, Symbol.spelling c = [c.toUpper] := by
    intro c hc
    exact spelling_letter (isCapital_of_mem_letters (h ▸ List.mem_map_of_mem hc))
  rw [← h, List.flatMap_congr hall, List.map_eq_flatMap]

namespace Symbol

theorem ofTextFrom_append (pos : Nat) (v w : List Char) :
    ofTextFrom pos (v ++ w) = ofTextFrom pos v ++ ofTextFrom (pos + v.length) w := by
  induction v generalizing pos with
  | nil => rfl
  | cons c v ih =>
    rw [List.cons_append, ofTextFrom, ofTextFrom, ih, List.append_assoc, List.length_cons,
      Nat.add_right_comm, Nat.add_assoc]

theorem map_char_ofTextFrom (pos : Nat) (w : List Char) :
    (ofTextFrom pos w).map (·.char) = w.flatMap spelling := by
  induction w generalizing pos with
  | nil => rfl
  | cons c w ih =>
    rw [ofTextFrom, List.map_append, ih, List.map_map, List.flatMap_cons]
    exact congrArg (· ++ _) (List.map_id _)

theorem ofTextFrom_cons {c d : Char} (h : spelling c = [d]) (pos : Nat) (w : List Char) :
    ofTextFrom pos (c :: w) = ⟨d, pos⟩ :: ofTextFrom (pos + 1) w := by
  rw [ofTextFrom, h]
  rfl

theorem ofTextFrom_snoc {c d : Char} (h : spelling c = [d]) (pos : Nat) (w : List Char) :
    ofTextFrom pos (w ++ [c]) = ofTextFrom pos w ++ [⟨d, pos + w.length⟩] := by
  rw [ofTextFrom_append, ofTextFrom_cons h, ofTextFrom]

end Symbol

/-! ## Keywords -/

theorem keyword?_eq (symbols : List Symbol) : keyword? symbols =
    keywords.find? fun op => op.letters.isPrefixOf ((symbols.map (·.char)).take 4) := by
  unfold keyword?
  rw [List.map_take]

theorem keyword?_letters {symbols : List Symbol} {op : Operator}
    (h : symbols.map (·.char) = op.letters) (rest : List Symbol) :
    keyword? (symbols ++ rest) = some op := by
  rw [keyword?_eq, List.map_append, h]
  cases op <;> rfl

/-- A keyword begins with two capitals. -/
theorem keyword?_eq_none {s : Symbol} {rest : List Symbol}
    (h : isCapital s.char = false ∨ ∀ r ∈ rest.head?, isCapital r.char = false) :
    keyword? (s :: rest) = none := by
  rw [keyword?_eq, List.find?_eq_none]
  intro op _ hprefix
  rw [List.isPrefixOf_iff_prefix] at hprefix
  have hletters : ∃ a b more, op.letters = a :: b :: more := by cases op <;> exact ⟨_, _, _, rfl⟩
  obtain ⟨a, b, more, he⟩ := hletters
  have hcapital : ∀ c ∈ op.letters, isCapital c = true := fun _ => isCapital_of_mem_letters
  rw [he] at hprefix hcapital
  cases rest with
  | nil => simp at hprefix
  | cons r rest =>
    simp only [List.map_cons, List.take_succ_cons, List.cons_prefix_cons] at hprefix
    obtain ⟨rfl, rfl, -⟩ := hprefix
    rcases h with h | h
    · rw [hcapital s.char List.mem_cons_self] at h
      cases h
    · have hr := h r rfl
      rw [hcapital r.char (List.mem_cons_of_mem _ List.mem_cons_self)] at hr
      cases hr

/-! ## The effect of each piece -/

theorem scan_blank {b : Char} (h : Text.isBlank b = true) (pos : Nat) (rest : List Symbol)
    (tokens : List Lexeme) : scan (⟨b, pos⟩ :: rest) tokens = scan rest tokens := by
  rw [scan, if_pos h]

theorem scan_keyword_cons {s : Symbol} {more : List Symbol} {op : Operator}
    (h : (s :: more).map (·.char) = op.letters) (rest : List Symbol) (tokens : List Lexeme) :
    scan (s :: more ++ rest) tokens = scan rest (⟨.op op, s.pos⟩ :: tokens) := by
  have hkeyword := keyword?_letters h rest
  have hlength := congrArg List.length h
  rw [List.length_map] at hlength
  have hmem : s.char ∈ op.letters := by
    rw [← h]
    exact List.mem_cons_self
  have hblank := isBlank_eq_false (isCapital_of_mem_letters hmem)
  rw [List.cons_append] at hkeyword ⊢
  rw [scan, if_neg (by simp [hblank]), hkeyword]
  simp only
  rw [← hlength, List.length_cons, Nat.add_sub_cancel, List.drop_left]

theorem scan_keyword {symbols : List Symbol} {op : Operator}
    (h : symbols.map (·.char) = op.letters) (rest : List Symbol) (tokens : List Lexeme) :
    ∃ pos, scan (symbols ++ rest) tokens = scan rest (⟨.op op, pos⟩ :: tokens) := by
  cases symbols with
  | nil => cases op <;> cases h
  | cons s more => exact ⟨s.pos, scan_keyword_cons h rest tokens⟩

theorem scan_letter {c : Char} (h : isCapital c = true) (pos : Nat) {rest : List Symbol}
    (hrest : ∀ r ∈ rest.head?, isCapital r.char = false) (tokens : List Lexeme) :
    scan (⟨c, pos⟩ :: rest) tokens = scan rest (⟨.var c, pos⟩ :: tokens) := by
  rw [scan, if_neg (by simp [isBlank_eq_false h]), keyword?_eq_none (Or.inr hrest)]
  simp only
  rw [if_pos h]

/-- A character that is neither a blank nor a letter is read by itself. -/
theorem scan_other {c : Char} (hb : Text.isBlank c = false) (hc : isCapital c = false) (pos : Nat)
    (rest : List Symbol) (tokens : List Lexeme) :
    scan (⟨c, pos⟩ :: rest) tokens =
      if c = '(' then scan rest (⟨.lparen, pos⟩ :: tokens)
      else if c = ')' then scan rest (⟨.rparen, pos⟩ :: tokens)
      else if c = '!' then scan rest (⟨.not, pos⟩ :: tokens)
      else if c = Symbol.prime then scan rest (negateOperand pos tokens)
      else .error (.invalidCharacter c pos) := by
  rw [scan, if_neg (by simp [hb]), keyword?_eq_none (Or.inl hc)]
  simp only [hc]
  rfl

theorem scan_lparen (pos : Nat) (rest : List Symbol) (tokens : List Lexeme) :
    scan (⟨'(', pos⟩ :: rest) tokens = scan rest (⟨.lparen, pos⟩ :: tokens) :=
  scan_other (by decide) (by decide) pos rest tokens

theorem scan_rparen (pos : Nat) (rest : List Symbol) (tokens : List Lexeme) :
    scan (⟨')', pos⟩ :: rest) tokens = scan rest (⟨.rparen, pos⟩ :: tokens) :=
  scan_other (by decide) (by decide) pos rest tokens

theorem scan_before (pos : Nat) (rest : List Symbol) (tokens : List Lexeme) :
    scan (⟨'!', pos⟩ :: rest) tokens = scan rest (⟨.not, pos⟩ :: tokens) :=
  scan_other (by decide) (by decide) pos rest tokens

theorem scan_behind (pos : Nat) (rest : List Symbol) (tokens : List Lexeme) :
    scan (⟨Symbol.prime, pos⟩ :: rest) tokens = scan rest (negateOperand pos tokens) :=
  scan_other (by decide) (by decide) pos rest tokens

end LogicCircuit.Formula
