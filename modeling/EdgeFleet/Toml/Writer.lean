import EdgeFleet.Toml.Basic
import EdgeFleet.Toml.Quoted

/-! # Writing TOML

A document is written as tables of plain values, with a blank line between them.
-/

namespace EdgeFleet.Toml

/-- A value that can stand on its own behind a key. -/
inductive Plain where
  | text (s : String)
  | nat (n : Nat)
  deriving DecidableEq

/-- The greatest number that can be written. -/
def maxNumber : Nat := 9223372036854775807

namespace Plain

/-- A value in its written form, unless it is a number that is too great. -/
def render? : Plain → Option (List Char)
  | text s => some (quoted s)
  | nat n => if n ≤ maxNumber then some (Decimal.digits n) else none

end Plain

/-- A line that gives a value to a key. -/
def renderPair? (p : String × Plain) : Option (List Char) :=
  p.2.render?.map fun value => p.1.toList ++ [' ', '=', ' '] ++ value ++ ['\n']

/-- A table under its header. The keys have to be words. -/
def renderTable? (t : String × List (String × Plain)) : Option (List Char) :=
  (t.2.mapM renderPair?).map fun lines => '[' :: t.1.toList ++ [']', '\n'] ++ lines.flatten

def render? (tables : List (String × List (String × Plain))) : Option String :=
  (tables.mapM renderTable?).map fun ts => String.ofList (['\n'].intercalate ts)

end EdgeFleet.Toml
