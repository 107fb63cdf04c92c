/-!
# JSON values

The data of a JSON text, as far as circuit files need it: a number that is not written as an
integer is only known to be one, and a string or key that is not text, because it holds a stray
byte or half of a surrogate pair, is only known to be there.
-/

namespace LogicCircuit

/-- A JSON value. -/
inductive Json where
  | null
  | bool (b : Bool)
  | integer (n : Int)
  /-- A number with a fraction or an exponent, or a negative zero. -/
  | real
  | string (text : Option String)
  | array (items : List Json)
  | object (members : List (Option String × Json))
  deriving Repr, Inhabited

namespace Json

/-- A natural number up to a bound. -/
def nat? (bound : Nat) : Json → Option Nat
  | integer n => if 0 ≤ n ∧ n.toNat ≤ bound then some n.toNat else none
  | _ => none

/-- An integer between two bounds. -/
def int? (low high : Int) : Json → Option Int
  | integer n => if low ≤ n ∧ n ≤ high then some n else none
  | _ => none

/-- A string that is text. -/
def text? : Json → Option String
  | string text => text
  | _ => none

/-- The items of an array. -/
def items? : Json → Option (List Json)
  | array items => some items
  | _ => none

/-- The member of a name. There is no answer if there are several members of the name. -/
def member? (name : String) (members : List (Option String × Json)) : Option (Option Json) :=
  match members.filter (·.1 == some name) with
  | [] => some none
  | [m] => some (some m.2)
  | _ => none

/-- The fields of a record, each as far as it is given: an object gives fields by their names,
once each and in any order, and may have members of other names; an array gives as many of the
first fields as it has items. -/
def fields? (names : List String) : Json → Option (List (Option Json))
  | object members =>
    if members.all (·.1.isSome) then names.mapM (member? · members) else none
  | array items =>
    if items.length ≤ names.length then some (names.mapIdx fun i _ => items[i]?) else none
  | _ => none

end Json

end LogicCircuit
