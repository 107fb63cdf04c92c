/-!
# Places

Where a path leads to in a tree of directories, as seen from the directory that a program works
in: first up, by some levels or to the root, and then down by names.

Main definitions:

* `Place`: a place in the tree.
* `Place.parent`, `Place.child`: one step up, and one step down.
-/

namespace LogicCircuit

/-- A directory that a way down begins at. -/
inductive Origin where
  /-- The working directory, or a directory that lies some levels above it. -/
  | above (levels : Nat)
  /-- The topmost directory. -/
  | root
  deriving DecidableEq, Repr

/-- The directory that holds another. The topmost one holds itself. -/
def Origin.parent : Origin → Origin
  | above levels => above (levels + 1)
  | root => root

/-- A place in a tree of directories. -/
structure Place where
  origin : Origin := .above 0
  names : List String := []
  deriving DecidableEq, Repr

namespace Place

/-- The place one level up. -/
def parent (p : Place) : Place :=
  if p.names.isEmpty then { p with origin := p.origin.parent }
  else { p with names := p.names.dropLast }

/-- The place of a name in a directory. -/
def child (p : Place) (name : String) : Place := { p with names := p.names ++ [name] }

/-- Whether a place lies below another one. -/
def isBelow (p q : Place) : Bool :=
  p.origin == q.origin && q.names.isPrefixOf p.names && p.names != q.names

end Place

end LogicCircuit
