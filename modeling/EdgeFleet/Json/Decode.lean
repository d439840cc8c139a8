import EdgeFleet.Json.Reader
import EdgeFleet.Json.Writer

/-! # Reading values of a known shape

A record may be given as an object, in any order and with further members, or as an array of its
fields in order. A known field may not be given twice. A field that has a default may be missing;
in an array the missing fields are the last ones.
-/

namespace EdgeFleet.Json

def asString? : Json → Option String
  | .str s => s
  | _ => none

def asBool? : Json → Option Bool
  | .bool b => some b
  | _ => none

/-- A natural number below `bound`. -/
def asNatBelow? (bound : Nat) : Json → Option Nat
  | .int n => if 0 ≤ n ∧ n < bound then some n.toNat else none
  | _ => none

/-- An integer of 64 bits. -/
def asInt64? : Json → Option Int
  | .int n => if Int64.minValue.toInt ≤ n ∧ n ≤ Int64.maxValue.toInt then some n else none
  | _ => none

def asList? {α : Type} (f : Json → Option α) : Json → Option (List α)
  | .arr items => items.mapM f
  | _ => none

/-- A value that may be `null`. -/
def asOption? {α : Type} (f : Json → Option α) : Json → Option (Option α)
  | .null => some none
  | j => (f j).map some

/-- A map: of members with one key the last stays, but each has to be readable. -/
def asMap? {α : Type} (f : Json → Option α) : Json → Option (KeyMap α)
  | .obj members =>
    (members.mapM fun (m : Option String × Json) => do
      let k ← m.1
      let v ← f m.2
      pure (k, v)).map KeyMap.ofList
  | _ => none

/-- The value of a field in an object whose keys are all readable, `none` when it is missing. A
field given twice is refused. -/
def lookupOnce? (members : List (Option String × Json)) (name : String) : Option (Option Json) :=
  match members.filter fun m => m.1 == some name with
  | [] => some none
  | [m] => some (some m.2)
  | _ => none

/-- The fields of a record in the order of `names`. -/
def fields? (names : List String) : Json → Option (List (Option Json))
  | .obj members =>
    if members.all fun m => m.1.isSome then names.mapM (lookupOnce? members) else none
  | .arr items =>
    if items.length ≤ names.length then
      some (items.map some ++ List.replicate (names.length - items.length) none)
    else none
  | _ => none

/-- A field that has to be given. -/
def required {α : Type} (f : Json → Option α) (field : Option Json) : Option α :=
  field.bind f

/-- A field that stands for `d` when it is missing. -/
def defaulted {α : Type} (d : α) (f : Json → Option α) : Option Json → Option α
  | none => some d
  | some j => f j

/-- How strictly the content of a variant is read. A value that has passed through a buffer may
give the content of a bare variant as an empty object. -/
inductive Strictness where
  | direct | buffered
  deriving DecidableEq

def isNothing : Strictness → Json → Bool
  | _, .null => true
  | .buffered, .obj [] => true
  | _, _ => false

/-- The name of a bare variant: a string, or an object with the name as its only key. -/
def variantName? (strictness : Strictness) : Json → Option String
  | .str s => s
  | .obj [(k, content)] => if isNothing strictness content then k else none
  | _ => none

/-- The greatest nesting of a value that is kept. -/
def maxDepth : Nat := 127

/-- A value that is kept as it is. -/
def parseKept? (bs : Bytes) : Option Json :=
  (parse? bs).filter fun j => j.keepable && decide (j.depth ≤ maxDepth)

end EdgeFleet.Json
