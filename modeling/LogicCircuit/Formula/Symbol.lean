import LogicCircuit.Operator

/-!
# Canonical symbols

A formula may be typed with the glyphs of Boolean algebra or with plain keywords:

    A ⊕ B       A XOR B
    A ⊙ B       A XNOR B
    A · B       A . B       A * B       A ∧ B       A AND B
    A + B       A ∨ B       A OR B
    ¬A          ~A          !A          A'          A̅

The canonical symbols are capitals, parentheses, `!` for a negation in front of its operand and a
prime for one behind it. Every symbol remembers which character of the text it comes from.
-/

namespace LogicCircuit.Formula

/-- A canonical character, and the position in the text of the character it comes from. -/
structure Symbol where
  char : Char
  pos : Nat
  deriving DecidableEq, Repr

namespace Symbol

/-- The mark of a negation behind its operand. -/
def prime : Char := '\''

/-- The operator that a glyph stands for. -/
def operator? : Char → Option Operator
  | '⊕' | '⊖' | '⊗' => some .xor
  | '⊙' => some .xnor
  | '⋅' | '·' | '*' | '.' | '∧' => some .and
  | '+' | '∨' => some .or
  | _ => none

/-- Whether the character is a negation in front of its operand. -/
def isNegation (c : Char) : Bool := c = '¬' || c = '~' || c = '!'

/-- Whether the character is a negation behind its operand: a prime of some kind, or one of the
two combining overlines. -/
def isPrime (c : Char) : Bool :=
  c = prime || c = '′' || c = '’' || c = '\u0304' || c = '\u0305'

/-- The canonical spelling of a character. A glyph of an operator becomes the keyword between two
blanks, so that it never runs together with a letter beside it; a character of no other meaning
is kept, in capitals. -/
def spelling (c : Char) : List Char :=
  match operator? c with
  | some op => ' ' :: op.letters ++ [' ']
  | none => if isNegation c then ['!'] else if isPrime c then [prime] else [c.toUpper]

/-- The canonical symbols of a text whose first character has the given position. -/
def ofTextFrom (pos : Nat) : List Char → List Symbol
  | [] => []
  | c :: rest => (spelling c).map (⟨·, pos⟩) ++ ofTextFrom (pos + 1) rest

/-- The canonical symbols of a text. -/
def ofText (text : List Char) : List Symbol := ofTextFrom 0 text

theorem length_spelling_pos (c : Char) : 0 < (spelling c).length := by
  unfold spelling
  split
  · simp
  · split
    · simp
    · split <;> simp

end Symbol

end LogicCircuit.Formula
