import Mathlib
import LogicCircuit.Formula.Parser

/-!
# The grammar of formulas

A phrase is a derivation tree of the grammar that the parser is described by. Chains of operators
lean to the left, and a group leaves no trace in the formula of a phrase.

Results:
* `leaves_formula`: the leaves of the formula are the letters among the tokens, in order.
* `depth_le_length`, `height_le_length`: a phrase of few tokens is neither deep nor high.
-/

namespace LogicCircuit.Formula

/-- The letter that a token stands for. -/
def Token.letter? : Token → Option Char
  | var c => some c
  | op _ | not | lparen | rparen => none

theorem map_token_eq_cons {ls : List Lexeme} {token : Token} {ts : List Token} :
    ls.map Lexeme.token = token :: ts ↔
      ∃ pos rest, ls = ⟨token, pos⟩ :: rest ∧ rest.map Lexeme.token = ts := by
  constructor
  · intro h
    obtain ⟨⟨_, pos⟩, rest, rfl, rfl, hrest⟩ := List.map_eq_cons_iff.mp h
    exact ⟨pos, rest, rfl, hrest⟩
  · rintro ⟨pos, rest, rfl, rfl⟩
    rfl

theorem map_token_eq_singleton {ls : List Lexeme} {token : Token} :
    ls.map Lexeme.token = [token] ↔ ∃ pos, ls = [⟨token, pos⟩] := by
  rw [map_token_eq_cons]
  simp

/-- The nonterminals of the grammar, from the loosest to the tightest binding. -/
inductive Tier where
  | sum | product | unary | primary
  deriving DecidableEq, Repr

/-- The derivation trees of the grammar. -/
inductive Phrase : Tier → Type where
  /-- A variable. -/
  | letter (c : Char) : Phrase .primary
  /-- A formula in parentheses. -/
  | group (inner : Phrase .sum) : Phrase .primary
  | ofPrimary (atom : Phrase .primary) : Phrase .unary
  /-- A negation in front of its operand. -/
  | not (operand : Phrase .unary) : Phrase .unary
  | ofUnary (factor : Phrase .unary) : Phrase .product
  /-- A chain of tight operators with a last operand. -/
  | product (left : Phrase .product) (op : Operator) (h : op.isProduct = true)
      (right : Phrase .unary) : Phrase .product
  | ofProduct (term : Phrase .product) : Phrase .sum
  /-- A chain of loose operators with a last operand. -/
  | sum (left : Phrase .sum) (op : Operator) (h : op.isProduct = false)
      (right : Phrase .product) : Phrase .sum

namespace Phrase

/-! ## What is derived -/

/-- The tokens of a phrase, from left to right. -/
def tokens : {tier : Tier} → Phrase tier → List Token
  | _, letter c => [.var c]
  | _, group inner => .lparen :: (inner.tokens ++ [.rparen])
  | _, ofPrimary atom => atom.tokens
  | _, not operand => .not :: operand.tokens
  | _, ofUnary factor => factor.tokens
  | _, product left op _ right => left.tokens ++ .op op :: right.tokens
  | _, ofProduct term => term.tokens
  | _, sum left op _ right => left.tokens ++ .op op :: right.tokens

/-- The formula of a phrase; a letter becomes a capital. -/
def formula : {tier : Tier} → Phrase tier → Formula
  | _, letter c => .var c.toUpper
  | _, group inner => inner.formula
  | _, ofPrimary atom => atom.formula
  | _, not operand => .not operand.formula
  | _, ofUnary factor => factor.formula
  | _, product left op _ right => .binary op left.formula right.formula
  | _, ofProduct term => term.formula
  | _, sum left op _ right => .binary op left.formula right.formula

/-- The greatest number of parentheses and negations that are open at once around a token. -/
def depth : {tier : Tier} → Phrase tier → Nat
  | _, letter _ => 0
  | _, group inner => inner.depth + 1
  | _, ofPrimary atom => atom.depth
  | _, not operand => operand.depth + 1
  | _, ofUnary factor => factor.depth
  | _, product left _ _ right => max left.depth right.depth
  | _, ofProduct term => term.depth
  | _, sum left _ _ right => max left.depth right.depth

variable {tier : Tier}

theorem leaves_formula (t : Phrase tier) :
    t.formula.leaves = (t.tokens.filterMap Token.letter?).map Char.toUpper := by
  induction t with
  | letter c => rfl
  | group inner ih => simpa [formula, tokens, List.filterMap_cons, Token.letter?] using ih
  | ofPrimary atom ih => exact ih
  | not operand ih => exact ih
  | ofUnary factor ih => exact ih
  | product left op _ right ihl ihr | sum left op _ right ihl ihr =>
    simp [formula, leaves, tokens, List.filterMap_cons, Token.letter?, ihl, ihr]
  | ofProduct term ih => exact ih

theorem depth_le_length (t : Phrase tier) : t.depth ≤ t.tokens.length := by
  induction t with
  | letter c => exact Nat.zero_le 1
  | ofPrimary atom ih => exact ih
  | ofUnary factor ih => exact ih
  | ofProduct term ih => exact ih
  | group inner ih =>
    simp only [depth, tokens, List.length_cons, List.length_append, List.length_nil]
    omega
  | not operand ih =>
    simp only [depth, tokens, List.length_cons]
    omega
  | product left op _ right ihl ihr | sum left op _ right ihl ihr =>
    simp only [depth, tokens, List.length_cons, List.length_append]
    omega

theorem height_le_length (t : Phrase tier) : t.formula.height ≤ t.tokens.length := by
  induction t with
  | letter c => exact le_rfl
  | ofPrimary atom ih => exact ih
  | ofUnary factor ih => exact ih
  | ofProduct term ih => exact ih
  | group inner ih =>
    simp only [formula, tokens, List.length_cons, List.length_append, List.length_nil]
    omega
  | not operand ih =>
    simp only [formula, height, tokens, List.length_cons]
    omega
  | product left op _ right ihl ihr | sum left op _ right ihl ihr =>
    simp only [formula, height, tokens, List.length_cons, List.length_append]
    omega

end Phrase

end LogicCircuit.Formula
