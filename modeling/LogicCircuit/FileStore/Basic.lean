import LogicCircuit.FileStore.Path

/-!
# Files

What a program does to files, and files in memory: those below the directory that it works in, and
those that it makes elsewhere. A path is followed part by part, and every part but the last has to
lead to a directory. The working directory and all above it exist, any other directory as long as
there is a file below it.

Main definitions:

* `FileSystem`: reading, creating and writing files.
* `FileStore`: files in memory.
* `FileStore.read`, `FileStore.target`: what is found at a path, and where a file can be created.
-/

namespace LogicCircuit

/-- The effects on files. -/
class FileSystem (m : Type → Type) where
  /-- The bytes of a file. -/
  read : String → m (Except FileError (List UInt8))
  /-- Make an empty file, or empty the one that is there. -/
  create : String → m (Except FileError Unit)
  /-- Give a file that was created its bytes. -/
  write : String → List UInt8 → m (Except FileError Unit)

/-- Files in memory, by their places. -/
structure FileStore where
  files : List (Place × List UInt8) := []
  deriving DecidableEq, Repr, Inhabited

namespace FileStore

/-- The bytes of the file at a place. -/
def content? (s : FileStore) (place : Place) : Option (List UInt8) := s.files.lookup place

/-- Whether a place is a directory: one that a way begins at, or one with a file below it. -/
def isDirectory (s : FileStore) (place : Place) : Bool :=
  place.names.isEmpty || s.files.any (·.1.isBelow place)

/-- Put a file at a place. -/
def put (s : FileStore) (place : Place) (bytes : List UInt8) : FileStore :=
  { files := (place, bytes) :: s.files.filter (·.1 != place) }

/-- Why a place is no directory. -/
def notDirectory (s : FileStore) (place : Place) : FileError :=
  if (s.content? place).isSome then .notDirectory else .notFound

/-- The place that a part of a path leads to. Only a directory can be searched, and a name has at
most 255 bytes. -/
def enter (s : FileStore) (place : Place) (part : String) : Except FileError Place :=
  if !s.isDirectory place then .error (s.notDirectory place)
  else if part = "." then .ok place
  else if part = ".." then .ok place.parent
  else if 255 < part.utf8ByteSize then .error .nameTooLong
  else .ok (place.child part)

/-- The place that some parts lead to, one after the other. -/
def follow (s : FileStore) (place : Place) : List String → Except FileError Place
  | [] => .ok place
  | part :: rest => do s.follow (← s.enter place part) rest

/-- The bytes of a file. -/
def read (s : FileStore) (text : String) : Except FileError (List UInt8) := do
  let p ← Path.accept text
  let place ← s.follow p.start p.parts
  if s.isDirectory place then throw .isDirectory
  match s.content? place with
  | none => throw .notFound
  | some bytes => if p.endsInSlash then throw .notDirectory else return bytes

/-- The place where a file can be created. A slash after the name asks for a directory, whatever
the name. -/
def target (s : FileStore) (text : String) : Except FileError Place := do
  let p ← Path.accept text
  let directory ← s.follow p.start p.parts.dropLast
  match p.parts.getLast? with
  | none => throw .isDirectory
  | some part =>
    if p.endsInSlash && s.isDirectory directory then throw .isDirectory
    let place ← s.enter directory part
    if s.isDirectory place then throw .isDirectory
    return place

/-- A program over files in memory. -/
abbrev Program := StateM FileStore

/-- Put bytes where a file can be created. -/
def store (path : String) (bytes : List UInt8) : Program (Except FileError Unit) := fun s =>
  match s.target path with
  | .ok place => (.ok (), s.put place bytes)
  | .error e => (.error e, s)

instance : FileSystem Program where
  read path := fun s => (s.read path, s)
  create path := store path []
  write path bytes := store path bytes

end FileStore

end LogicCircuit
