import LogicCircuit.Formula.Token

/-!
# Syntax errors

Why a text is not a formula. Positions count the characters of the text from zero.
-/

namespace LogicCircuit.Formula

/-- The ways in which a text fails to be a formula. -/
inductive SyntaxError where
  /-- A character that belongs to no token. -/
  | invalidCharacter (char : Char) (pos : Nat)
  /-- An operator or a closing parenthesis where an operand should stand. -/
  | unexpectedToken (token : Token) (pos : Nat)
  /-- The group that was opened at the position is not closed where it ends. -/
  | unclosedGroup (pos : Nat)
  /-- The text ends where an operand should stand. -/
  | incomplete
  /-- A token after a complete formula. -/
  | trailingToken (token : Token) (pos : Nat)
  /-- The nesting or the height goes over the limit. -/
  | tooDeep (limit : Nat)
  deriving DecidableEq, Repr

/-- The wording of a syntax error. -/
def SyntaxError.message : SyntaxError → String
  | invalidCharacter c pos => s!"invalid character '{c}' at position {pos}"
  | unexpectedToken t pos => s!"unexpected token {t.text} at position {pos}"
  | unclosedGroup pos => s!"parenthesis opened at position {pos} is never closed"
  | incomplete => "incomplete expression"
  | trailingToken t pos => s!"unexpected token {t.text} after the expression at position {pos}"
  | tooDeep limit => s!"expression is nested deeper than {limit} levels"

end LogicCircuit.Formula
