import EdgeFleet.Json.Number
import EdgeFleet.Text.Hex
import EdgeFleet.Time.Rfc3339

/-! # TOML values

A table remembers how it came to be, because that decides what may still be added to it. Of fractional
numbers and of dates only that they are there is kept.
-/

namespace EdgeFleet

namespace Toml

/-- How a table came to be. -/
inductive Origin where
  /-- It has a header of its own, or is the document. -/
  | header
  /-- It lies on the way to a table that has a header. -/
  | implied
  /-- It lies on the way to a dotted key. -/
  | dotted
  /-- It stands between braces, and nothing can be added. -/
  | closed
  deriving DecidableEq

end Toml

inductive Toml where
  | text (s : String)
  | integer (n : Int)
  | fraction
  | bool (b : Bool)
  | moment
  | array (items : List Toml)
  | table (origin : Toml.Origin) (members : List (String × Toml))
  /-- Tables under a header that may be repeated. -/
  | tables (items : List (List (String × Toml)))

namespace Toml

abbrev Members := List (String × Toml)

/-! ## Numbers -/

/-- The characters of unquoted values. -/
def isWordChar (c : Char) : Bool := c.isAlphanum ∨ c ∈ ['+', '-', '.', '_', ':']

/-- Digits without the underscores between them; at least one digit. -/
def ungroup? (isDigit : Char → Bool) : List Char → Option (List Char)
  | [] => none
  | [c] => if isDigit c then some [c] else none
  | c :: '_' :: cs => if isDigit c then (ungroup? isDigit cs).map (c :: ·) else none
  | c :: cs => if isDigit c then (ungroup? isDigit cs).map (c :: ·) else none

/-- The sign of a numeral, and the rest. -/
def takeSign : List Char → Bool × List Char
  | '-' :: cs => (true, cs)
  | '+' :: cs => (false, cs)
  | cs => (false, cs)

/-- The digits of a whole number: no zero before another digit. -/
def wholeDigits? (cs : List Char) : Option (List Char) :=
  if cs.head? = some '0' ∧ cs ≠ ['0'] then none else ungroup? Decimal.isDigit cs

/-- A natural number in another base. Such a numeral has no sign. -/
def readBased? : List Char → Option Nat
  | '0' :: 'x' :: cs => (ungroup? (fun c => (Hex.charValue? c).isSome) cs).bind Hex.ofChars?
  | '0' :: 'o' :: cs =>
    (ungroup? (fun c => '0' ≤ c ∧ c ≤ '7') cs).map (·.foldl (fun n c => 8 * n + Decimal.value c) 0)
  | '0' :: 'b' :: cs =>
    (ungroup? (fun c => c = '0' ∨ c = '1') cs).map (·.foldl (fun n c => 2 * n + Decimal.value c) 0)
  | _ => none

/-- An integer of 64 bits. -/
def readInteger? (word : List Char) : Option Int :=
  let n : Option Int := match readBased? word with
    | some n => some n
    | none =>
      let (negative, cs) := takeSign word
      (wholeDigits? cs).map fun ds =>
        if negative then -(Decimal.ofDigits ds : Int) else Decimal.ofDigits ds
  n.filter fun n => Int64.minValue.toInt ≤ n ∧ n ≤ Int64.maxValue.toInt

/-- The exponent of a numeral without its mark. -/
def readExponent? (cs : List Char) : Option (Bool × Bytes) :=
  let (negative, cs) := takeSign cs
  (ungroup? Decimal.isDigit cs).map fun ds => (negative, ascii ds)

/-- A numeral with a fraction, an exponent or both. -/
def readNumeral? (word : List Char) : Option Json.Numeral := do
  let (negative, cs) := takeSign word
  let isMark (c : Char) : Bool := c = 'e' ∨ c = 'E'
  let front := cs.takeWhile (¬isMark ·)
  let exponent ← match cs.dropWhile (¬isMark ·) with
    | [] => pure none
    | _ :: cs => (readExponent? cs).map some
  let whole ← wholeDigits? (front.takeWhile (· ≠ '.'))
  let fraction ← match front.dropWhile (· ≠ '.') with
    | [] => pure none
    | _ :: cs => (ungroup? Decimal.isDigit cs).map some
  guard (fraction.isSome ∨ exponent.isSome)
  pure ⟨negative, ascii whole, fraction.map ascii, exponent⟩

/-- Whether a word is a fractional number, infinity, or no number. A numeral may not be too great. -/
def isFraction (word : List Char) : Bool :=
  (takeSign word).2 ∈ ["inf".toList, "nan".toList] ∨
    (readNumeral? word).any fun n => n.negative ∨ n.isFinite

/-! ## Dates -/

open Timestamp (takeNumber? expect?)

/-- What follows a date of the calendar. -/
def afterDate? (cs : List Char) : Option (List Char) := do
  let (year, cs) ← takeNumber? 4 cs
  let (month, cs) ← takeNumber? 2 (← expect? '-' cs)
  let (day, cs) ← takeNumber? 2 (← expect? '-' cs)
  guard (1 ≤ month ∧ month ≤ 12 ∧ 1 ≤ day ∧ day ≤ Calendar.daysIn year month)
  pure cs

/-- What follows a time of the day. -/
def afterTime? (cs : List Char) : Option (List Char) := do
  let (hour, cs) ← takeNumber? 2 cs
  let (minute, cs) ← takeNumber? 2 (← expect? ':' cs)
  let (second, cs) ← takeNumber? 2 (← expect? ':' cs)
  guard (hour ≤ 23 ∧ minute ≤ 59 ∧ second ≤ 60)
  match cs with
  | '.' :: cs => if (cs.takeWhile Decimal.isDigit).isEmpty then none else some (cs.dropWhile Decimal.isDigit)
  | cs => some cs

/-- Whether the text is a time of the day, with the distance from universal time or without. -/
def isDayTime (cs : List Char) : Bool :=
  (afterTime? cs).any fun rest => rest = [] ∨ (Timestamp.readOffset? rest).isSome

/-- Whether a word is a date, a time of the day without a distance, or both with a `T` between them. -/
def isMoment (word : List Char) : Bool :=
  match afterDate? word with
  | some [] => true
  | some (c :: cs) => (c = 'T' ∨ c = 't') ∧ isDayTime cs
  | none => afterTime? word = some []

end Toml

end EdgeFleet
