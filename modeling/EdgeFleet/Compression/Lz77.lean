import Std.Data.HashMap
import EdgeFleet.Text.Bytes

/-! # Repetitions

Data as literals and copies of what came before. The search for repetitions is only trusted for
its proposals: a copy is used as far as the data really repeats.
-/

namespace EdgeFleet.Lz77

inductive Token where
  | literal (b : UInt8)
  /-- So many octets, from so far back. -/
  | copy (length distance : Nat)
  deriving DecidableEq

/-- The octet so far back; zero before the beginning. -/
def back (out : Array UInt8) (distance : Nat) : UInt8 :=
  if distance ≤ out.size then out.getD (out.size - distance) 0 else 0

/-- Appends octets from so far back. A copy may reach into what it appends. -/
def copy (distance : Nat) : (length : Nat) → Array UInt8 → Array UInt8
  | 0, out => out
  | n + 1, out => copy distance n (out.push (back out distance))

def Token.append (out : Array UInt8) : Token → Array UInt8
  | .literal b => out.push b
  | .copy length distance => Lz77.copy distance length out

def expand (ts : List Token) (out : Array UInt8) : Array UInt8 := ts.foldl Token.append out

/-! ## Finding repetitions -/

/-- How many octets from `i` on, at most `limit`, equal those from `j` on. -/
def matchLength (data : Array UInt8) (i j : Nat) : (limit : Nat) → Nat
  | 0 => 0
  | n + 1 =>
    if i < data.size ∧ data[i]? = data[j]? then matchLength data (i + 1) (j + 1) n + 1 else 0

/-- The place where three octets were seen last, by their value. -/
abbrev Seen := Std.HashMap Nat Nat

/-- The value of the three octets at `i`. -/
def triple (data : Array UInt8) (i : Nat) : Nat :=
  (data.getD i 0).toNat + 256 * ((data.getD (i + 1) 0).toNat + 256 * (data.getD (i + 2) 0).toNat)

/-- A copy of at least `least` octets that continues the data at `i`. -/
def repetition? (least limit window : Nat) (data : Array UInt8) (i : Nat) (seen : Seen) :
    Option (Nat × Nat) := do
  let j ← seen[triple data i]?
  let length := matchLength data i j limit
  guard (j < i ∧ i - j ≤ window ∧ least ≤ length)
  pure (length, i - j)

/-- The data from `i` on as tokens. Copies have between 3 and `limit` octets and reach back at most
`window`. -/
def tokensFrom (limit window : Nat) (data : Array UInt8) (i : Nat) (seen : Seen) : List Token :=
  if h : i < data.size then
    let found := repetition? 3 limit window data i seen
    let known := seen.insert (triple data i) i
    match found with
    | some (length + 1, distance) =>
      .copy (length + 1) distance :: tokensFrom limit window data (i + (length + 1)) known
    | _ => .literal data[i] :: tokensFrom limit window data (i + 1) known
  else []
termination_by data.size - i

def tokens (limit window : Nat) (data : Array UInt8) : List Token :=
  tokensFrom limit window data 0 ∅

end EdgeFleet.Lz77
