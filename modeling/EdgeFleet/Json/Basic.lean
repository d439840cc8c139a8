import EdgeFleet.KeyMap.Basic
import EdgeFleet.Text.Bytes

/-! # JSON values

Members keep the order in which they are written, repeated keys included. A quoted sequence that
spells no text (broken UTF-8, an unpaired surrogate) is kept as `none`: such a string may be
skipped, never read. A number written with a fraction, an exponent or as `-0` keeps its literal.
-/

namespace EdgeFleet

inductive Json where
  | null
  | bool (b : Bool)
  | int (n : Int)
  | real (literal : Bytes)
  | str (s : Option String)
  | arr (items : List Json)
  | obj (members : List (Option String × Json))
  deriving Inhabited

namespace Json

/-- A readable string. -/
abbrev text (s : String) : Json := .str (some s)

/-- A natural number. -/
abbrev nat (n : Nat) : Json := .int n

/-- An object with readable keys. -/
def record (members : List (String × Json)) : Json :=
  .obj (members.map fun m => (some m.1, m.2))

/-- An object whose members are the entries of a map, in key order. -/
def ofMap {α : Type} (f : α → Json) (m : KeyMap α) : Json :=
  record (m.toList.map fun e => (e.1, f e.2))

/-- The same when values may have no document. -/
def ofMap? {α : Type} (f : α → Option Json) (m : KeyMap α) : Option Json :=
  (m.toList.mapM fun e => (f e.2).map (e.1, ·)).map record

def ofList {α : Type} (f : α → Json) (xs : List α) : Json :=
  .arr (xs.map f)

/-- A value that may be absent. -/
def ofOption {α : Type} (f : α → Json) : Option α → Json
  | none => .null
  | some a => f a

/-- A member that is left out when there is nothing to say. -/
def omitIf (absent : Bool) (key : String) (value : Json) : List (String × Json) :=
  if absent then [] else [(key, value)]

/-- A member that is left out when its value is absent. -/
def whenSome {α : Type} (key : String) (f : α → Json) : Option α → List (String × Json)
  | none => []
  | some a => [(key, f a)]

mutual

/-- How many arrays and objects are open at the deepest point of a value. -/
def depth : Json → Nat
  | .arr items => depthItems items + 1
  | .obj members => depthMembers members + 1
  | _ => 0

def depthItems : List Json → Nat
  | [] => 0
  | j :: rest => max (depth j) (depthItems rest)

def depthMembers : List (Option String × Json) → Nat
  | [] => 0
  | (_, j) :: rest => max (depth j) (depthMembers rest)

end

end Json

end EdgeFleet
