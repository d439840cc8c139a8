import EdgeFleet.Toml.Reader

/-! # Reading TOML values of a known shape

A record may be given as a table, which may have further members, or as an array of its fields in order.
A date is taken for a record without fields.
-/

namespace EdgeFleet.Toml

def asText? : Toml → Option String
  | .text s => some s
  | _ => none

/-- A natural number below `bound`. -/
def asNatBelow? (bound : Nat) : Toml → Option Nat
  | .integer n => if 0 ≤ n ∧ n < bound then some n.toNat else none
  | _ => none

/-- The fields of a record in the order of `names`. -/
def fields? (names : List String) : Toml → Option (List (Option Toml))
  | .table _ ms => some (names.map fun name => ms.lookup name)
  | .array items => some (names.mapIdx fun i _ => items[i]?)
  | .tables items => some (names.mapIdx fun i _ => items[i]?.map (.table .header))
  | .moment => some (names.map fun _ => none)
  | _ => none

/-- A field that stands for `d` when it is missing. -/
def defaulted {α : Type} (d : α) (f : Toml → Option α) : Option Toml → Option α
  | none => some d
  | some t => f t

end EdgeFleet.Toml
