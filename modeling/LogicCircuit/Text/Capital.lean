/-!
# Capital letters

Upper-casing by the full Unicode mapping, as far as it yields ASCII letters. Besides the letters
`a` to `z` that are the dotless i, the long s, the sharp s and the seven Latin ligatures; the
sharp s and the ligatures become several letters. Every other character is kept: its capital
holds a character outside ASCII, so it spells none of the names that are compared here.
-/

namespace LogicCircuit.Text

/-- The capital of a character that has one in ASCII; any other character as it is. -/
def capital (c : Char) : List Char :=
  match c with
  | 'ı' => ['I']
  | 'ſ' => ['S']
  | 'ß' => ['S', 'S']
  | 'ﬀ' => ['F', 'F']
  | 'ﬁ' => ['F', 'I']
  | 'ﬂ' => ['F', 'L']
  | 'ﬃ' => ['F', 'F', 'I']
  | 'ﬄ' => ['F', 'F', 'L']
  | 'ﬅ' => ['S', 'T']
  | 'ﬆ' => ['S', 'T']
  | c => [c.toUpper]

/-- The text in capitals. -/
def capitals (text : List Char) : List Char := text.flatMap capital

end LogicCircuit.Text
