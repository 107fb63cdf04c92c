import LogicCircuit.Operator
import LogicCircuit.Text.Blank
import LogicCircuit.Text.Capital

/-!
# Gate kinds

What a gate computes, and the name of that in circuit files. Reading a name ignores blanks around
it and the case of its letters.
-/

namespace LogicCircuit

/-- What a gate computes. Several gates may stand for the same letter. -/
inductive GateKind where
  | const (bit : Bool)
  | var (letter : Char)
  | not
  | binary (op : Operator)
  deriving DecidableEq, Repr

namespace GateKind

/-- Number of inputs. -/
def arity : GateKind → Nat
  | const _ | var _ => 0
  | not => 1
  | binary _ => 2

/-- Whether the gate has no input, so that signals start from it. -/
def isSource (k : GateKind) : Bool := k.arity == 0

/-- The letter that the gate stands for. -/
def letter? : GateKind → Option Char
  | var c => some c
  | const _ | not | binary _ => none

/-- The operator of a binary gate. -/
def operator? : GateKind → Option Operator
  | binary op => some op
  | const _ | var _ | not => none

/-- The same kind, with its letter as a capital. -/
def normalized : GateKind → GateKind
  | var c => var c.toUpper
  | const b => const b
  | not => not
  | binary op => binary op

/-- The kind of a letter of the alphabet, in either case. -/
def ofLetter? (letter : Char) : Option GateKind :=
  if letter.isAlpha then some (var letter.toUpper) else none

/-- The characters of the name. -/
def letters : GateKind → List Char
  | const b => ['C', 'O', 'N', 'S', 'T', Value.digit b]
  | var c => ['V', 'A', 'R', '(', c, ')']
  | not => ['N', 'O', 'T']
  | binary op => op.letters

/-- The name. -/
def text (k : GateKind) : String := String.ofList k.letters

/-- The kinds whose name is a single word. -/
def words : List GateKind := [not, const false, const true] ++ Operator.all.map binary

/-- The kind with the given characters, in capitals, as its name. -/
def ofLetters? (name : List Char) : Option GateKind :=
  match name with
  | ['V', 'A', 'R', '(', c, ')'] => ofLetter? c
  | _ => words.find? (·.letters = name)

/-- The kind with this name, in any case and with blanks around it. -/
def ofText? (text : String) : Option GateKind :=
  ofLetters? (Text.capitals (Text.trim text.toList))

/-- The wording for a text that names no kind. -/
def unknownMessage (text : String) : String := s!"Unknown gate kind {text}"

@[simp] theorem arity_normalized (k : GateKind) : k.normalized.arity = k.arity := by
  cases k <;> rfl

@[simp] theorem normalized_eq_var {k : GateKind} {c : Char} :
    k.normalized = var c ↔ ∃ d, k = var d ∧ d.toUpper = c := by
  cases k <;> simp [normalized]

end GateKind

end LogicCircuit
