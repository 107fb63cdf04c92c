import LogicCircuit.Operator

/-!
# Tokens

The words of the formula language, and words together with their place in the text.
-/

namespace LogicCircuit.Formula

/-- A word of the formula language. -/
inductive Token where
  | op (operator : Operator)
  | not
  | lparen
  | rparen
  | var (letter : Char)
  deriving DecidableEq, Repr

/-- The written form of a token. -/
def Token.text : Token → String
  | op o => o.keyword
  | not => "!"
  | lparen => "("
  | rparen => ")"
  | var c => c.toString

/-- A token, and the position in the text of its first character. -/
structure Lexeme where
  token : Token
  pos : Nat
  deriving DecidableEq, Repr

end LogicCircuit.Formula
