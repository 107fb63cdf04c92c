import LogicCircuit.Json.Basic

/-!
# Writing JSON

JSON text over several lines: every item and member has a line of its own, indented by two blanks
per level, and an empty array or object stays on one line.

JSON leaves this open. The layout is taken over from the JSON library that circuit files are
exchanged with, which is not part of this project: what has been said of lines and blanks; a colon
with one blank behind it, and a comma right behind a value; the short escapes where there are any,
four hexadecimal digits in lower case for the other control characters, and every other character as
it is; no end of line behind the last brace.
-/

namespace LogicCircuit.Json

/-- A hexadecimal digit in lower case. -/
def hexDigit (n : Nat) : Char := Nat.digitChar (n % 16)

/-- A character within a string. -/
def escaped (c : Char) : List Char :=
  match c with
  | '"' => ['\\', '"']
  | '\\' => ['\\', '\\']
  | '\x08' => ['\\', 'b']
  | '\x0C' => ['\\', 'f']
  | '\n' => ['\\', 'n']
  | '\r' => ['\\', 'r']
  | '\t' => ['\\', 't']
  | c =>
    if c.toNat < 0x20 then ['\\', 'u', '0', '0', hexDigit (c.toNat / 16), hexDigit c.toNat]
    else [c]

/-- A string in quotes. One that is not text is written as an empty one. -/
def quoted (text : Option String) : List Char :=
  '"' :: (text.getD "").toList.flatMap escaped ++ ['"']

/-- The digits of a natural number. -/
def natDigits (n : Nat) : List Char := Nat.toDigits 10 n

/-- An integer. -/
def intDigits (n : Int) : List Char :=
  if n < 0 then '-' :: natDigits n.natAbs else natDigits n.natAbs

/-- The start of a new line at a level. -/
def newline (level : Nat) : List Char := '\n' :: List.replicate (2 * level) ' '

mutual

/-- A value that begins on a line of the given level. -/
def chars (level : Nat) : Json → List Char
  | null => ['n', 'u', 'l', 'l']
  | bool true => ['t', 'r', 'u', 'e']
  | bool false => ['f', 'a', 'l', 's', 'e']
  | integer n => intDigits n
  | real => ['0', '.', '0']
  | string text => quoted text
  | array [] => ['[', ']']
  | array (j :: items) =>
    '[' :: newline (level + 1) ++ chars (level + 1) j ++ itemsChars (level + 1) items ++
      newline level ++ [']']
  | object [] => ['\x7b', '\x7d']
  | object ((key, j) :: members) =>
    '\x7b' :: newline (level + 1) ++ quoted key ++ [':', ' '] ++ chars (level + 1) j ++
      membersChars (level + 1) members ++ newline level ++ ['\x7d']

/-- The items after the first one. -/
def itemsChars (level : Nat) : List Json → List Char
  | [] => []
  | j :: items => ',' :: newline level ++ chars level j ++ itemsChars level items

/-- The members after the first one. -/
def membersChars (level : Nat) : List (Option String × Json) → List Char
  | [] => []
  | (key, j) :: members =>
    ',' :: newline level ++ quoted key ++ [':', ' '] ++ chars level j ++
      membersChars level members

end

/-- The text of a value. -/
def pretty (j : Json) : String := String.ofList (j.chars 0)

end LogicCircuit.Json
