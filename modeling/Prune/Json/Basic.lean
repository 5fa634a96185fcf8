/-!
# JSON values

JSON values (`Json`), in which the members of an object keep the order in which their names first
occur, and tables from names to values in that order (`Table`).
-/

namespace Prune

/-- The values of names, in the order in which the names were first given. -/
abbrev Table (α : Type) := List (String × α)

/-- The value of a name. -/
def Table.get? {α : Type} (t : Table α) (name : String) : Option α :=
  (t.find? fun entry => entry.1 == name).map (·.2)

/-- Gives a name a value: in the place of its former value, or at the end. -/
def Table.put {α : Type} (t : Table α) (name : String) (value : α) : Table α :=
  match t with
  | [] => [(name, value)]
  | entry :: rest =>
    if entry.1 == name then (name, value) :: rest else entry :: Table.put rest name value

/-- Gives a name a value in a table that is sorted by names. -/
def Table.putSorted {α : Type} (t : Table α) (name : String) (value : α) : Table α :=
  match t with
  | [] => [(name, value)]
  | entry :: rest =>
    if name == entry.1 then (name, value) :: rest
    else if name < entry.1 then (name, value) :: entry :: rest
    else entry :: Table.putSorted rest name value

/-- A number as it is written: an integer of 64 bits, or a double. -/
inductive Json.Number where
  | int (n : Int)
  | double (x : Float)
deriving Inhabited, DecidableEq, Repr

/-- A number as a double. -/
def Json.Number.toFloat : Json.Number → Float
  | .int n =>
    let magnitude := (UInt64.ofNat n.natAbs).toFloat
    if n < 0 then -magnitude else magnitude
  | .double x => x

/-- A JSON value. -/
inductive Json where
  | null
  | bool (b : Bool)
  | number (n : Json.Number)
  | string (s : String)
  | array (items : List Json)
  | object (members : List (String × Json))
deriving Inhabited, Repr

/-- The value of a member of an object. -/
def Json.get? : Json → String → Option Json
  | .object members, name => Table.get? members name
  | _, _ => none

end Prune
