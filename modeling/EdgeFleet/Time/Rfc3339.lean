import EdgeFleet.Text.Decimal
import EdgeFleet.Time.Timestamp

/-! # Timestamps as RFC 3339 text

Written with `T`, the fraction only when it is not zero and without trailing zeros, and `Z` for
universal time. Read with any one character between date and time and either case of `Z`; of the
fraction the first nine digits count. A leap second is read as the last nanosecond before it, and
only where the universal clock may have one.
-/

namespace EdgeFleet.Timestamp

open Decimal (padded isDigit value ofDigits)

/-! ## Writing -/

/-- The digits of a fraction of a second without trailing zeros. -/
def fractionDigits (nano : Nat) : List Char :=
  ((padded 9 nano).reverse.dropWhile (· = '0')).reverse

def offsetChars (offset : Int) : List Char :=
  if offset = 0 then ['Z']
  else (if offset < 0 then '-' else '+') ::
    (padded 2 (offset.natAbs / 60) ++ ':' :: padded 2 (offset.natAbs % 60))

def toChars (t : Timestamp) : List Char :=
  padded 4 t.year ++ '-' :: padded 2 t.month ++ '-' :: padded 2 t.day ++
    'T' :: padded 2 t.hour ++ ':' :: padded 2 t.minute ++ ':' :: padded 2 t.second ++
    (if t.nano = 0 then [] else '.' :: fractionDigits t.nano) ++ offsetChars t.offset

def render (t : Timestamp) : String := String.ofList t.toChars

/-! ## Reading -/

/-- A number of exactly `n` digits and what follows it. -/
def takeNumber? (n : Nat) (cs : List Char) : Option (Nat × List Char) :=
  let ds := cs.take n
  if ds.length = n ∧ ds.all isDigit then some (ofDigits ds, cs.drop n) else none

/-- What follows the character `c`. -/
def expect? (c : Char) : List Char → Option (List Char)
  | d :: cs => if c = d then some cs else none
  | [] => none

/-- The nanoseconds of an optional fraction and what follows it. -/
def takeFraction? : List Char → Option (Nat × List Char)
  | '.' :: cs =>
    let ds := cs.takeWhile isDigit
    if ds = [] then none
    else some (ofDigits ((ds ++ List.replicate 9 '0').take 9), cs.dropWhile isDigit)
  | cs => some (0, cs)

/-- The minutes of an offset that ends the text. -/
def readOffset? : List Char → Option Int
  | ['Z'] | ['z'] => some 0
  | sign :: cs => do
    guard (sign = '+' ∨ sign = '-')
    let (hours, cs) ← takeNumber? 2 cs
    let cs ← expect? ':' cs
    let (minutes, cs) ← takeNumber? 2 cs
    guard (cs = [] ∧ hours ≤ 23 ∧ minutes ≤ 59)
    let total : Int := (60 * hours + minutes : Nat)
    pure (if sign = '-' then -total else total)
  | [] => none

def ofChars? (cs : List Char) : Option Timestamp := do
  let (year, cs) ← takeNumber? 4 cs
  let cs ← expect? '-' cs
  let (month, cs) ← takeNumber? 2 cs
  let cs ← expect? '-' cs
  let (day, cs) ← takeNumber? 2 cs
  let cs ← match cs with
    | _ :: cs => some cs
    | [] => none
  let (hour, cs) ← takeNumber? 2 cs
  let cs ← expect? ':' cs
  let (minute, cs) ← takeNumber? 2 cs
  let cs ← expect? ':' cs
  let (second, cs) ← takeNumber? 2 cs
  let (nano, cs) ← takeFraction? cs
  let offset ← readOffset? cs
  if second = 60 then
    (of? year month day hour minute 59 999999999 offset).filter endsMonth
  else of? year month day hour minute second nano offset

def parse? (s : String) : Option Timestamp := ofChars? s.toList

end EdgeFleet.Timestamp
