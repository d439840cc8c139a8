import EdgeFleet.KeyMap.Basic
import EdgeFleet.Yaml.Node

/-! # Reading YAML values of a known shape

A record is given as a mapping, which may have further keys; a known one may not be given twice. Every
scalar is a text. Where nothing stands, a record is one without fields, and a list or a map is empty.
-/

namespace EdgeFleet.Yaml

/-- Reads a node of a document. -/
abbrev Decoder (α : Type) := Document → Yaml → Option α

/-- The node that an alias stands for; any other node stands for itself. -/
def resolve? : Decoder Yaml
  | d, .alias n => d.anchored.lookup n
  | _, y => some y

/-- Whether nothing stands here. -/
def isEmpty : Yaml → Bool
  | .scalar .plain _ "" => true
  | _ => false

def asText? : Decoder String := fun d y => do
  match ← resolve? d y with
  | .scalar _ _ s => some s
  | _ => none

/-- A natural number: decimal without a zero in front, or in another base. -/
def natOf? (cs : List Char) : Option Nat :=
  let cs := if cs.head? = some '+' then cs.tail else cs
  match cs with
  | '0' :: 'x' :: ds => if ds = [] then none else Hex.ofChars? ds
  | '0' :: 'o' :: ds =>
    if ds ≠ [] ∧ ds.all (fun c => '0' ≤ c ∧ c ≤ '7') then
      some (ds.foldl (fun n c => 8 * n + Decimal.value c) 0)
    else none
  | '0' :: 'b' :: ds =>
    if ds ≠ [] ∧ ds.all (fun c => c = '0' ∨ c = '1') then
      some (ds.foldl (fun n c => 2 * n + Decimal.value c) 0)
    else none
  | ds =>
    if ds ≠ [] ∧ ds.all Decimal.isDigit ∧ (ds.head? = some '0' → ds = ['0']) then
      some (Decimal.ofDigits ds)
    else none

/-- A natural number below `bound`. A quoted number is none. -/
def asNatBelow? (bound : Nat) : Decoder Nat := fun d y => do
  let isNumeral (style : Style) (tag : Option String) : Bool :=
    style = .plain ∨ (style = .literal ∧ tag = some "tag:yaml.org,2002:int")
  match ← resolve? d y with
  | .scalar style tag s => if isNumeral style tag then (natOf? s.toList).filter (· < bound) else none
  | _ => none

def asList? {α : Type} (f : Decoder α) : Decoder (List α) := fun d y => do
  match ← resolve? d y with
  | .sequence items => items.mapM (f d)
  | y => if isEmpty y then some [] else none

/-- A map: of pairs with one key the last stays, but each has to be readable. -/
def asMap? {α : Type} (f : Decoder α) : Decoder (KeyMap α) := fun d y => do
  match ← resolve? d y with
  | .mapping pairs =>
    (pairs.mapM fun (p : Yaml × Yaml) => do
      let k ← asText? d p.1
      let v ← f d p.2
      pure (k, v)).map KeyMap.ofList
  | y => if isEmpty y then some ∅ else none

/-- The fields of a record in the order of `names`. -/
def fields? (names : List String) : Decoder (List (Option Yaml)) := fun d y => do
  match ← resolve? d y with
  | .mapping pairs =>
    let members ← pairs.mapM fun (p : Yaml × Yaml) => (asText? d p.1).map (·, p.2)
    names.mapM fun name => match members.filter (·.1 = name) with
      | [] => some none
      | [m] => some (some m.2)
      | _ => none
  | y => if isEmpty y then some (names.map fun _ => none) else none

/-- The name of a variant without content: a scalar, or a tag on nothing. -/
def variantName? : Decoder String := fun d y => do
  match ← resolve? d y with
  | .scalar _ none s => some s
  | .scalar style (some tag) s =>
    if style = .plain ∧ s ∈ ["", "null", "Null", "NULL", "~"] then
      some (if tag.toList.head? = some '!' then String.ofList tag.toList.tail else tag)
    else none
  | _ => none

/-- A field that has to be given. -/
def required {α : Type} (f : Decoder α) (d : Document) (field : Option Yaml) : Option α :=
  field.bind (f d)

/-- A field that stands for `default` when it is missing. -/
def defaulted {α : Type} (default : α) (f : Decoder α) (d : Document) : Option Yaml → Option α
  | none => some default
  | some y => f d y

end EdgeFleet.Yaml
