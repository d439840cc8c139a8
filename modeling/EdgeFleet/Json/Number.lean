import EdgeFleet.Json.Basic
import EdgeFleet.Text.Decimal

/-! # JSON numbers

`readNumber?` accepts exactly the numerals of the JSON grammar. An integer literal becomes an
exact integer; any other numeral, `-0` included, keeps its octets.
-/

namespace EdgeFleet.Json

def isDigit (b : UInt8) : Bool := 48 ≤ b ∧ b ≤ 57

/-- The value of a run of digits. -/
def natOfDigits (ds : Bytes) : Nat :=
  ds.foldl (fun n b => 10 * n + (b.toNat - 48)) 0

/-- A numeral cut into its parts, each a run of digits. -/
structure Numeral where
  negative : Bool
  whole : Bytes
  fraction : Option Bytes
  exponent : Option (Bool × Bytes)

namespace Numeral

/-- An optional exponent: nothing, or `e` with an optional sign and digits up to the end. -/
def readExponent? : Bytes → Option (Option (Bool × Bytes))
  | [] => some none
  | b :: rest =>
    if b = octet 'e' ∨ b = octet 'E' then
      let (negative, ds) := match rest with
        | c :: ds => if c = octet '+' then (false, ds)
            else if c = octet '-' then (true, ds) else (false, rest)
        | [] => (false, [])
      if ds ≠ [] ∧ ds.all isDigit then some (some (negative, ds)) else none
    else none

/-- The parts of a numeral: no leading zero before another digit, no bare point. -/
def read? (bs : Bytes) : Option Numeral :=
  let (negative, bs) := match bs with
    | b :: rest => if b = octet '-' then (true, rest) else (false, bs)
    | [] => (false, [])
  let whole := bs.takeWhile isDigit
  let rest := bs.dropWhile isDigit
  if whole = [] ∨ (whole.head? = some (octet '0') ∧ whole.length > 1) then none
  else match rest with
    | [] => some ⟨negative, whole, none, none⟩
    | b :: tail =>
      if b = octet '.' then
        let fraction := tail.takeWhile isDigit
        if fraction = [] then none
        else (readExponent? (tail.dropWhile isDigit)).map fun e => ⟨negative, whole, some fraction, e⟩
      else (readExponent? rest).map fun e => ⟨negative, whole, none, e⟩

def isInteger (n : Numeral) : Bool := n.fraction.isNone ∧ n.exponent.isNone

/-- The digits as an integer, without the point. -/
def digits (n : Numeral) : Nat := natOfDigits (n.whole ++ n.fraction.getD [])

/-- The power of ten that the digits are multiplied by. -/
def scale (n : Numeral) : Int :=
  (match n.exponent with
    | none => 0
    | some (negative, ds) => if negative then -(natOfDigits ds : Int) else natOfDigits ds)
    - (n.fraction.getD []).length

/-- The double that is nearest. -/
def toFloat (n : Numeral) : Float :=
  let size := Float.ofScientific n.digits (n.scale < 0) n.scale.natAbs
  if n.negative then -size else size

/-- Whether the numeral is below the greatest finite double, after rounding. -/
def isFinite (n : Numeral) : Bool :=
  let size : Int := (Decimal.digits n.digits).length + n.scale
  if n.digits = 0 ∨ size < 309 then true
  else if size > 309 then false
  else
    let limit : Nat := (1 <<< 1024) - (1 <<< 970)
    if 0 ≤ n.scale then decide (n.digits * Nat.pow 10 n.scale.toNat < limit)
    else decide (n.digits < limit * Nat.pow 10 (-n.scale).toNat)

end Numeral

/-- The number that an unquoted word spells. -/
def readNumber? (bs : Bytes) : Option Json :=
  (Numeral.read? bs).map fun n =>
    if n.isInteger then
      let v := natOfDigits n.whole
      if n.negative then (if v = 0 then .real bs else .int (-(v : Int))) else .int v
    else .real bs

/-- The double that is nearest to a number. -/
def asFloat? : Json → Option Float
  | .int n => some (.ofInt n)
  | .real literal => (Numeral.read? literal).map Numeral.toFloat
  | _ => none

mutual

/-- Whether a value can be kept: every string spells text and every number is finite. -/
def keepable : Json → Bool
  | .int n => decide (n.natAbs < (1 <<< 1024) - (1 <<< 970))
  | .real literal => ((Numeral.read? literal).map Numeral.isFinite).getD false
  | .str s => s.isSome
  | .arr items => keepableItems items
  | .obj members => keepableMembers members
  | _ => true

def keepableItems : List Json → Bool
  | [] => true
  | j :: rest => keepable j && keepableItems rest

def keepableMembers : List (Option String × Json) → Bool
  | [] => true
  | (k, j) :: rest => k.isSome && keepable j && keepableMembers rest

end

end EdgeFleet.Json
