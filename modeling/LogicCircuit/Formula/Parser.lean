import LogicCircuit.Formula.Basic
import LogicCircuit.Formula.Lexer
import LogicCircuit.Limits

/-!
# From tokens to formulas

The grammar, from the loosest to the tightest binding; chains associate to the left:

    formula := product ((OR | NOR | XOR | XNOR) product)*
    product := unary ((AND | NAND) unary)*
    unary   := '!' unary | VARIABLE | '(' formula ')'

The tokens are read one by one. Between two tokens the reader either waits for an operand or has
just completed a product, and it remembers what stands unfinished in front of that, for the group
it is in and for every group around it. A limit bounds the nesting, that is the parentheses and
negations open at once, and the height of every node that is made of others.

Main definitions:

* `Reader`: what has been read so far.
* `Reader.step`: the effect of one token.
* `ofLexemes`: the formula of a token sequence.
* `parse`: the formula of a text.
-/

namespace LogicCircuit.Formula

/-! ## What has been read -/

/-- What stands in a group in front of the operand that is awaited: a chain of each strength that
ends with an operator, and negations. -/
structure Pending where
  sum : Option (Formula × Operator) := none
  product : Option (Formula × Operator) := none
  negations : Nat := 0
  deriving DecidableEq, Repr

/-- A group around the one that is being read: the position of the parenthesis that opened the
inner one, and what stands in front of it. -/
structure Enclosing where
  start : Nat
  pending : Pending
  deriving DecidableEq, Repr

/-- What has been read: an operand is awaited, or a product is complete as far as it goes. -/
inductive Reader where
  | awaiting (pending : Pending) (outer : List Enclosing)
  | complete (sum : Option (Formula × Operator)) (product : Formula) (outer : List Enclosing)
  deriving DecidableEq, Repr

/-- Number of parentheses and negations that are open. -/
def nesting (pending : Pending) (outer : List Enclosing) : Nat :=
  outer.foldr (fun e count => 1 + e.pending.negations + count) pending.negations

/-! ## Building nodes -/

/-- A formula, unless its height goes over the limit. -/
def bounded (limit : Nat) (f : Formula) : Except SyntaxError Formula :=
  if f.height ≤ limit then .ok f else .error (.tooDeep limit)

/-- The formula under a number of negations. -/
def negated (limit : Nat) : Nat → Formula → Except SyntaxError Formula
  | 0, f => .ok f
  | n + 1, f => do negated limit n (← bounded limit f.not)

/-- A chain continued by its next operand. -/
def continued (limit : Nat) (chain : Option (Formula × Operator)) (f : Formula) :
    Except SyntaxError Formula :=
  match chain with
  | none => .ok f
  | some (left, op) => bounded limit (.binary op left f)

/-- The product that ends with an operand, given what stands in front of it. -/
def Pending.product? (limit : Nat) (p : Pending) (operand : Formula) :
    Except SyntaxError Formula := do
  continued limit p.product (← negated limit p.negations operand)

/-! ## Reading -/

/-- Before the first token. -/
def Reader.start : Reader := .awaiting {} []

/-- Await an operand, unless the nesting goes over the limit. -/
def Reader.enter (limit : Nat) (pending : Pending) (outer : List Enclosing) :
    Except SyntaxError Reader :=
  if nesting pending outer ≤ limit then .ok (.awaiting pending outer) else .error (.tooDeep limit)

/-- The effect of one token. -/
def Reader.step (limit : Nat) : Reader → Lexeme → Except SyntaxError Reader
  | .awaiting p outer, ⟨token, pos⟩ =>
    match token with
    | .var c => do return .complete p.sum (← p.product? limit (.var c.toUpper)) outer
    | .not => enter limit { p with negations := p.negations + 1 } outer
    | .lparen => enter limit {} (⟨pos, p⟩ :: outer)
    | .rparen | .op _ => .error (.unexpectedToken token pos)
  | .complete sum f outer, ⟨token, pos⟩ =>
    match token with
    | .op op =>
      if op.isProduct then .ok (.awaiting { sum, product := some (f, op) } outer)
      else do return .awaiting { sum := some (← continued limit sum f, op) } outer
    | .var _ | .not | .lparen | .rparen => do
      let f ← continued limit sum f
      match outer with
      | [] => .error (.trailingToken token pos)
      | e :: outer =>
        if token = .rparen then
          return .complete e.pending.sum (← e.pending.product? limit f) outer
        else .error (.unclosedGroup e.start)

/-- The formula that has been read when the tokens end. -/
def Reader.result (limit : Nat) : Reader → Except SyntaxError Formula
  | .awaiting _ _ => .error .incomplete
  | .complete sum f outer => do
    let f ← continued limit sum f
    match outer with
    | [] => .ok f
    | e :: _ => .error (.unclosedGroup e.start)

/-- The formula of a token sequence. -/
def ofLexemes (lexemes : List Lexeme) (limits : Limits) : Except SyntaxError Formula := do
  (← lexemes.foldlM (Reader.step limits.depth) .start).result limits.depth

/-- The formula of a text. -/
def parse (text : String) (limits : Limits) : Except SyntaxError Formula := do
  ofLexemes (← tokenize text.toList) limits

end LogicCircuit.Formula
