import LogicCircuit.FileStore.Error
import LogicCircuit.FileStore.Place

/-!
# Paths

A path is a sequence of parts between slashes, of which empty ones do not count. It starts at the
root if it begins with a slash, and it is meant as a directory if it ends with one. The part `.`
stays where it is and `..` goes up.

Main definitions:

* `Path.ofText`, `Path.accept`: the path that a text spells, for any text and for those that the
  system takes.
* `Path.extension?`: what tells the format of a file.
-/

namespace LogicCircuit

/-- The parts of a path, and the slashes at its two ends. -/
structure Path where
  startsAtRoot : Bool
  parts : List String
  endsInSlash : Bool
  deriving DecidableEq, Repr

namespace Path

/-- The parts of a text between slashes. -/
def split : List Char → List Char × List (List Char)
  | [] => ([], [])
  | c :: rest =>
    let (part, parts) := split rest
    if c = '/' then ([], part :: parts) else (c :: part, parts)

/-- The path that a text spells. -/
def ofText (text : String) : Path :=
  let (part, parts) := split text.toList
  { startsAtRoot := text.toList.head? == some '/'
    parts := ((part :: parts).filter (!·.isEmpty)).map String.ofList
    endsInSlash := text.toList.getLast? == some '/' }

/-- The path that a text spells. The text must hold no NUL character and from 1 to 4095 bytes. -/
def accept (text : String) : Except FileError Path :=
  if text.contains '\x00' then .error .nulInPath
  else if text.isEmpty then .error .notFound
  else if 4096 ≤ text.utf8ByteSize then .error .nameTooLong
  else .ok (ofText text)

/-- The directory that a path starts at. -/
def start (p : Path) : Place := if p.startsAtRoot then { origin := .root } else {}

/-- What follows the last dot of a name, if something stands in front of it. -/
def nameExtension? (name : List Char) : Option (List Char) :=
  match name.reverse.dropWhile (· != '.') with
  | [] | [_] => none
  | _ :: _ :: _ => some (name.reverse.takeWhile (· != '.')).reverse

/-- The extension of the file that a path names. -/
def extension? (p : Path) : Option String :=
  match (p.parts.filter (· != ".")).getLast? with
  | none | some ".." => none
  | some name => (nameExtension? name.toList).map String.ofList

end Path

end LogicCircuit
