import EdgeFleet.Text.Bytes

/-! # Decimal numerals -/

namespace EdgeFleet.Decimal

/-- The digits of `n`, most significant first, without leading zeros. -/
def digits (n : Nat) : List Char := Nat.toDigits 10 n

def render (n : Nat) : String := String.ofList (digits n)

/-- The digits of `n`, filled up with zeros on the left to `width` characters. -/
def padded (width n : Nat) : List Char :=
  let ds := digits n
  List.replicate (width - ds.length) '0' ++ ds

def isDigit (c : Char) : Bool := '0' ≤ c ∧ c ≤ '9'

def value (c : Char) : Nat := c.toNat - '0'.toNat

/-- The value of a list of digits. -/
def ofDigits (cs : List Char) : Nat :=
  cs.foldl (fun n c => 10 * n + value c) 0

/-- Reads an unsigned numeral: at least one digit, leading zeros and one leading `+` allowed. -/
def parse? (s : String) : Option Nat :=
  let cs := match s.toList with
    | '+' :: cs => cs
    | cs => cs
  if cs ≠ [] ∧ cs.all isDigit then some (ofDigits cs) else none

/-- Reads an unsigned numeral below `bound`. -/
def parseBelow? (bound : Nat) (s : String) : Option Nat :=
  (parse? s).filter (· < bound)

end EdgeFleet.Decimal
