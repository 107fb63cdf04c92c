import LogicCircuit.Json.Basic
import LogicCircuit.Text.Rune

/-!
# Reading JSON

A strict reader. It takes the runes of a file, since a string that no field uses may hold bytes
that are not text.

What it accepts is taken over from the JSON library that circuit files are exchanged with, which is
not part of this project. Only spaces, tabs and ends of lines may stand between the parts of a
value, before it and behind it, so no mark of the byte order either. A control character in a string
has to be escaped, escaped surrogates come in pairs in what is read as text, and a leading zero
stands alone. A number with a fraction or an exponent is no integer, whatever its value, and neither
is negative zero. The reader itself sets no bound to the digits of a number or to the depth of a
value; integers are bounded by the fields that take them.

Main definitions:

* `units?`, `decodeUnits`: the content of a string, and the text that it spells.
* `readNumber?`: a number.
* `readValue?`: a value.
* `ofRunes?`: the value of a whole file.
-/

namespace LogicCircuit.Json

open LogicCircuit.Text (Rune)

/-! ## Strings -/

/-- A piece of a string: a character, a code unit given in hexadecimal, or a stray byte. -/
inductive Unit16 where
  | char (c : Char)
  | code (n : Nat)
  | stray
  deriving DecidableEq, Repr

/-- The value of a hexadecimal digit. -/
def hexValue? (r : Rune) : Option Nat := do
  let c ← r
  if c.isDigit then some (c.toNat - '0'.toNat)
  else if 'a' ≤ c ∧ c ≤ 'f' then some (c.toNat - 'a'.toNat + 10)
  else if 'A' ≤ c ∧ c ≤ 'F' then some (c.toNat - 'A'.toNat + 10)
  else none

/-- The value of four hexadecimal digits. -/
def hexValue4? (a b c d : Rune) : Option Nat := do
  return (((← hexValue? a) * 16 + (← hexValue? b)) * 16 + (← hexValue? c)) * 16 + (← hexValue? d)

/-- The character that a single character after a backslash stands for. -/
def escape? : Char → Option Char
  | '"' => some '"'
  | '\\' => some '\\'
  | '/' => some '/'
  | 'b' => some '\x08'
  | 'f' => some '\x0C'
  | 'n' => some '\n'
  | 'r' => some '\r'
  | 't' => some '\t'
  | _ => none

/-- The content of a string up to its closing quote, and what comes after that. -/
def units? : List Rune → Option (List Unit16 × List Rune)
  | some '"' :: rest => some ([], rest)
  | some '\\' :: some 'u' :: a :: b :: c :: d :: rest => do
    let n ← hexValue4? a b c d
    let (units, rest) ← units? rest
    return (.code n :: units, rest)
  | some '\\' :: some c :: rest => do
    let c ← escape? c
    let (units, rest) ← units? rest
    return (.char c :: units, rest)
  | some c :: rest => do
    if c.toNat < 0x20 ∨ c = '\\' then none
    let (units, rest) ← units? rest
    return (.char c :: units, rest)
  | none :: rest => do
    let (units, rest) ← units? rest
    return (.stray :: units, rest)
  | [] => none

/-- Whether the code unit is the first half of a surrogate pair. -/
def isHighSurrogate (n : Nat) : Bool := 0xD800 ≤ n && n < 0xDC00

/-- Whether the code unit is the second half of a surrogate pair. -/
def isLowSurrogate (n : Nat) : Bool := 0xDC00 ≤ n && n < 0xE000

/-- The text that the content of a string spells, if it holds no stray byte and no half of a
surrogate pair. -/
def decodeUnits : List Unit16 → Option (List Char)
  | [] => some []
  | .char c :: rest => (decodeUnits rest).map (c :: ·)
  | .stray :: _ => none
  | .code n :: rest =>
    if isHighSurrogate n then
      match rest with
      | .code m :: rest =>
        if isLowSurrogate m then
          (decodeUnits rest).map
            (Char.ofNat (0x10000 + (n - 0xD800) * 0x400 + (m - 0xDC00)) :: ·)
        else none
      | _ => none
    else if isLowSurrogate n then none
    else (decodeUnits rest).map (Char.ofNat n :: ·)

/-- A string after its opening quote, and what comes after it. -/
def readString? (s : List Rune) : Option (Option String × List Rune) :=
  (units? s).map fun (units, rest) => ((decodeUnits units).map String.ofList, rest)

/-! ## Numbers -/

/-- Whether the rune is a decimal digit. -/
def isDigit (r : Rune) : Bool :=
  match r with
  | some c => c.isDigit
  | none => false

/-- The number that decimal digits spell. -/
def digitsValue (digits : List Rune) : Nat :=
  digits.foldl (fun n r => n * 10 + ((r.getD '0').toNat - '0'.toNat)) 0

/-- One or more decimal digits, and what comes after them. -/
def digits? (s : List Rune) : Option (List Rune × List Rune) :=
  match s.takeWhile isDigit with
  | [] => none
  | digits => some (digits, s.dropWhile isDigit)

/-- What comes after a fraction, if there is one; whether there is one comes first. -/
def fraction? : List Rune → Option (Bool × List Rune)
  | some '.' :: rest => (digits? rest).map fun (_, rest) => (true, rest)
  | s => some (false, s)

/-- What comes after the sign of an exponent. -/
def skipSign : List Rune → List Rune
  | some '+' :: rest | some '-' :: rest => rest
  | s => s

/-- What comes after an exponent, if there is one; whether there is one comes first. -/
def exponent? : List Rune → Option (Bool × List Rune)
  | some 'e' :: rest | some 'E' :: rest =>
    (digits? (skipSign rest)).map fun (_, rest) => (true, rest)
  | s => some (false, s)

/-- A number after its sign, and what comes after it. A leading zero stands alone. -/
def readUnsigned? (negative : Bool) (s : List Rune) : Option (Json × List Rune) := do
  let (digits, s) ← digits? s
  if digits.head? = some (some '0') ∧ 1 < digits.length then none
  let (hasFraction, s) ← fraction? s
  let (hasExponent, s) ← exponent? s
  let n := digitsValue digits
  let value :=
    if hasFraction || hasExponent || (negative && n == 0) then real
    else integer (if negative then -n else n)
  return (value, s)

/-- A number, and what comes after it. -/
def readNumber? : List Rune → Option (Json × List Rune)
  | some '-' :: rest => readUnsigned? true rest
  | s => readUnsigned? false s

/-! ## Values -/

/-- Whether the rune is a blank between two parts of a value. -/
def isSpace (r : Rune) : Bool := r == ' ' || r == '\t' || r == '\n' || r == '\r'

/-- What comes after blanks. -/
def skipSpace (s : List Rune) : List Rune := s.dropWhile isSpace

mutual

/-- A value, and what comes after it. -/
def readValue? : Nat → List Rune → Option (Json × List Rune)
  | 0, _ => none
  | fuel + 1, s =>
    match skipSpace s with
    | some 'n' :: some 'u' :: some 'l' :: some 'l' :: rest => some (null, rest)
    | some 't' :: some 'r' :: some 'u' :: some 'e' :: rest => some (bool true, rest)
    | some 'f' :: some 'a' :: some 'l' :: some 's' :: some 'e' :: rest => some (bool false, rest)
    | some '"' :: rest => (readString? rest).map fun (text, rest) => (string text, rest)
    | some '[' :: rest =>
      match skipSpace rest with
      | some ']' :: rest => some (array [], rest)
      | rest => (readItems? fuel rest).map fun (items, rest) => (array items, rest)
    | some '\x7b' :: rest =>
      match skipSpace rest with
      | some '\x7d' :: rest => some (object [], rest)
      | rest => (readMembers? fuel rest).map fun (members, rest) => (object members, rest)
    | rest => readNumber? rest

/-- The items of an array up to its end, and what comes after that. -/
def readItems? : Nat → List Rune → Option (List Json × List Rune)
  | 0, _ => none
  | fuel + 1, s => do
    let (j, rest) ← readValue? fuel s
    match skipSpace rest with
    | some ',' :: rest =>
      let (items, rest) ← readItems? fuel rest
      return (j :: items, rest)
    | some ']' :: rest => return ([j], rest)
    | _ => none

/-- The members of an object up to its end, and what comes after that. -/
def readMembers? : Nat → List Rune → Option (List (Option String × Json) × List Rune)
  | 0, _ => none
  | fuel + 1, s =>
    match skipSpace s with
    | some '"' :: rest => do
      let (key, rest) ← readString? rest
      match skipSpace rest with
      | some ':' :: rest =>
        let (j, rest) ← readValue? fuel rest
        match skipSpace rest with
        | some ',' :: rest =>
          let (members, rest) ← readMembers? fuel rest
          return ((key, j) :: members, rest)
        | some '\x7d' :: rest => return ([(key, j)], rest)
        | _ => none
      | _ => none
    | _ => none

end

/-- The value that a file consists of, with nothing but blanks around it. Between two recursive
calls on the way down at least every second one takes a rune, so twice as much fuel as there are
runes lasts. -/
def ofRunes? (s : List Rune) : Option Json := do
  let (j, rest) ← readValue? (2 * s.length + 2) s
  if (skipSpace rest).isEmpty then some j else none

/-- The value that a text consists of. -/
def ofText? (text : String) : Option Json := ofRunes? (Text.runes text)

end LogicCircuit.Json
