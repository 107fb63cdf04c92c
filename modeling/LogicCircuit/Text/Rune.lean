/-!
# Runes

A file is a sequence of bytes, which need not be text. Reading it as UTF-8 gives runes: the
characters, and in between the bytes that belong to no character.
-/

namespace LogicCircuit.Text

/-- A character of a file, or a byte of it that belongs to no character. -/
abbrev Rune := Option Char

/-- The runes of a text. -/
def runes (text : String) : List Rune := text.toList.map some

/-- The six bits of a byte that continues a character. -/
def continuation? (b : UInt8) : Option Nat :=
  if 0x80 ≤ b && b < 0xC0 then some (b.toNat - 0x80) else none

/-- The value of a number of continuation bytes, put behind the leading bits. -/
def continued? (bits : Nat) : Nat → List UInt8 → Option Nat
  | 0, _ => some bits
  | _ + 1, [] => none
  | n + 1, b :: rest => do continued? (bits * 64 + (← continuation? b)) n rest

/-- The number of continuation bytes that a leading byte announces, and its own bits. -/
def lead? (b : UInt8) : Option (Nat × Nat) :=
  if b < 0x80 then some (0, b.toNat)
  else if 0xC0 ≤ b && b < 0xE0 then some (1, b.toNat - 0xC0)
  else if 0xE0 ≤ b && b < 0xF0 then some (2, b.toNat - 0xE0)
  else if 0xF0 ≤ b && b < 0xF8 then some (3, b.toNat - 0xF0)
  else none

/-- The smallest code point that is written with a number of continuation bytes. -/
def smallest : Nat → Nat
  | 0 => 0
  | 1 => 0x80
  | 2 => 0x800
  | _ => 0x10000

/-- The character at the start of some bytes, and the number of bytes after its first one. A
character has to be written as short as possible, and surrogates are no characters. -/
def character? (bytes : List UInt8) : Option (Char × Nat) := do
  let b :: rest := bytes | none
  let (n, bits) ← lead? b
  let code ← continued? bits n rest
  if h : code.isValidChar ∧ smallest n ≤ code then some (Char.ofNatAux code h.1, n) else none

/-- The runes of some bytes. -/
def decode : List UInt8 → List Rune
  | [] => []
  | b :: rest =>
    match character? (b :: rest) with
    | some (c, n) => some c :: decode (rest.drop n)
    | none => none :: decode rest
termination_by bytes => bytes.length
decreasing_by all_goals simp +arith

/-- The bytes of a text. -/
def encode (text : String) : List UInt8 := text.toUTF8.toList

end LogicCircuit.Text
