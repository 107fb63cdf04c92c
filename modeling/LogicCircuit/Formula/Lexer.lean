import LogicCircuit.Formula.Error
import LogicCircuit.Formula.Symbol
import LogicCircuit.Text.Blank

/-!
# From symbols to tokens

Keywords are found wherever they stand, also between letters: `AORB` is `A OR B`. A negation
behind its operand is moved in front of it, so that the tokens only hold negations in front. The
tokens read so far are kept last token first, which puts the operand that a prime belongs to at
the head of the list.

Main definitions:

* `negateOperand`: a negation behind its operand, moved in front of it.
* `tokenize`: the tokens of a text, or the first character that belongs to none.
-/

namespace LogicCircuit.Formula

/-! ## Negations behind their operand -/

/-- Put a mark in front of the group whose closing parentheses are being counted, in tokens that
are listed last token first: it goes behind the opening parenthesis that brings the count back to
zero. There is no answer if the tokens end before that. -/
def negateGroup? (mark : Lexeme) : Nat → List Lexeme → Option (List Lexeme)
  | _, [] => none
  | depth, l :: rest =>
    match l.token with
    | .rparen => (negateGroup? mark (depth + 1) rest).map (l :: ·)
    | .lparen =>
      if depth ≤ 1 then some (l :: mark :: rest)
      else (negateGroup? mark (depth - 1) rest).map (l :: ·)
    | _ => (negateGroup? mark depth rest).map (l :: ·)

/-- Negate the operand that the tokens, listed last token first, end with: a letter or a group.
Where they end with no operand the negation stands where it is. -/
def negateOperand (pos : Nat) (tokens : List Lexeme) : List Lexeme :=
  let mark : Lexeme := ⟨.not, pos⟩
  match tokens with
  | [] => [mark]
  | l :: rest =>
    match l.token with
    | .var _ => l :: mark :: rest
    | .rparen => (negateGroup? mark 0 tokens).getD (mark :: tokens)
    | _ => mark :: tokens

/-! ## Reading tokens -/

/-- The order in which keywords are tried. -/
def keywords : List Operator := [.nand, .xnor, .and, .nor, .xor, .or]

/-- The operator whose keyword the symbols begin with. -/
def keyword? (symbols : List Symbol) : Option Operator :=
  keywords.find? fun op => op.letters.isPrefixOf ((symbols.take 4).map (·.char))

/-- Whether the character is a capital of the alphabet. -/
def isCapital (c : Char) : Bool := 'A' ≤ c && c ≤ 'Z'

/-- Read the symbols on; the tokens read so far are given and returned last token first. -/
def scan (symbols : List Symbol) (tokens : List Lexeme) : Except SyntaxError (List Lexeme) :=
  match symbols with
  | [] => .ok tokens
  | s :: rest =>
    if Text.isBlank s.char then scan rest tokens
    else
      match keyword? (s :: rest) with
      | some op => scan (rest.drop (op.letters.length - 1)) (⟨.op op, s.pos⟩ :: tokens)
      | none =>
        if isCapital s.char then scan rest (⟨.var s.char, s.pos⟩ :: tokens)
        else if s.char = '(' then scan rest (⟨.lparen, s.pos⟩ :: tokens)
        else if s.char = ')' then scan rest (⟨.rparen, s.pos⟩ :: tokens)
        else if s.char = '!' then scan rest (⟨.not, s.pos⟩ :: tokens)
        else if s.char = Symbol.prime then scan rest (negateOperand s.pos tokens)
        else .error (.invalidCharacter s.char s.pos)
termination_by symbols.length
decreasing_by all_goals simp +arith

/-- The tokens of a text. -/
def tokenize (text : List Char) : Except SyntaxError (List Lexeme) :=
  (scan (Symbol.ofText text) []).map List.reverse

end LogicCircuit.Formula
