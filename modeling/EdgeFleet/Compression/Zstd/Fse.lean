import EdgeFleet.Compression.Bits

/-! # Finite state entropy

A distribution of symbols over the states of a machine: each state stands for a symbol, and bits from
the stream lead from state to state. The streams are read backwards, from their last bit to the first.
-/

namespace EdgeFleet.Zstd

/-! ## Streams that are read backwards -/

/-- The bits of a stream in reading order. The highest set bit of the last octet marks its end. -/
def backward? (bs : Bytes) : Option (List Bool) :=
  match bs.reverse with
  | [] => none
  | last :: others =>
    match (Bits.ofOctet last).reverse.dropWhile not with
    | [] => none
    | _ :: bits => some (bits ++ others.flatMap fun b => (Bits.ofOctet b).reverse)

/-- A number of `n` bits. -/
def backwardNat? (n : Nat) (bits : List Bool) : Option (Nat × List Bool) :=
  let front := bits.take n
  if front.length = n then some (Bits.toNatFromHigh front, bits.drop n) else none

def backwardNext? : List Bool → Option (Bool × List Bool)
  | [] => none
  | b :: bs => some (b, bs)

namespace Fse

/-! ## Machines -/

/-- A state: its symbol, and how the next state is read. -/
structure Cell where
  symbol : Nat
  bits : Nat
  base : Nat
  deriving Inhabited

structure Machine where
  /-- There are `2 ^ log` states. -/
  log : Nat
  cells : Array Cell
  deriving Inhabited

/-- How many states a symbol has. A rare symbol has one at the end, given as none. -/
abbrev Distribution := List (Option Nat)

/-- The symbols in the order in which they take the states: each as often as it has states. -/
def common (d : Distribution) : List Nat :=
  d.zipIdx.flatMap fun e => List.replicate (e.1.getD 0) e.2

def rare (d : Distribution) : List Nat :=
  d.zipIdx.filterMap fun e => if e.1.isNone then some e.2 else none

/-- The states in the order in which they are taken, those at the end left out. -/
def places (log kept : Nat) : List Nat :=
  let size := 1 <<< log
  let step := size / 2 + size / 8 + 3
  ((List.range size).map fun k => k * step % size).filter (· < kept)

/-- Which states at the end belong to which rare symbol. -/
def rarePlaces (log : Nat) (d : Distribution) : List (Nat × Nat) :=
  (rare d).zipIdx.map fun e => ((1 <<< log) - 1 - e.2, e.1)

/-- The symbol of each state. -/
def spread (log : Nat) (d : Distribution) : Array Nat :=
  let atEnd := rarePlaces log d
  let taken := (places log ((1 <<< log) - atEnd.length)).zip (common d) ++ atEnd
  taken.foldl (fun a e => a.setIfInBounds e.1 e.2) (Array.replicate (1 <<< log) 0)

/-- The state of a symbol that has `n` states before it and with it, counted from its first. -/
def cellOf (log symbol n : Nat) : Cell :=
  let bits := log - n.log2
  ⟨symbol, bits, (n <<< bits) - (1 <<< log)⟩

/-- The machine of a distribution. Each symbol's states are numbered on from their count. -/
def Machine.ofDistribution (log : Nat) (d : Distribution) : Machine :=
  let counts := (d.map fun c => c.getD 1).toArray
  let (cells, _) := (spread log d).foldl (fun (cells, next) symbol =>
    let n := next.getD symbol 1
    (cells.push (cellOf log symbol n), next.setIfInBounds symbol (n + 1))) (#[], counts)
  ⟨log, cells⟩

/-- The machine that repeats one symbol and reads nothing. -/
def Machine.constant (symbol : Nat) : Machine := ⟨0, #[⟨symbol, 0, 0⟩]⟩

def Machine.cell (m : Machine) (state : Nat) : Cell := m.cells.getD state default

def Machine.start? (m : Machine) (bits : List Bool) : Option (Nat × List Bool) :=
  backwardNat? m.log bits

def Machine.step? (m : Machine) (state : Nat) (bits : List Bool) : Option (Nat × List Bool) :=
  let cell := m.cell state
  (backwardNat? cell.bits bits).map fun (n, bits) => (cell.base + n, bits)

/-! ## Descriptions of distributions -/

open BitReader (nat?)

/-- A number up to `limit`. The smaller ones take one bit less where that is possible. -/
def readUpTo? (limit : Nat) (r : BitReader) : Option (Nat × BitReader) := do
  let bits := limit.log2
  let short := (2 <<< bits) - 1 - limit
  let (low, r) ← nat? bits r
  if low < short then pure (low, r)
  else
    let (high, r) ← nat? 1 r
    pure (if high = 1 then low + (1 <<< bits) - short else low, r)

/-- How many further symbols have no states: twos of bits, of which the last is not three. -/
def readZeros? : (fuel : Nat) → BitReader → Option (Nat × BitReader)
  | 0, _ => none
  | fuel + 1, r => do
    let (n, r) ← nat? 2 r
    if n < 3 then pure (n, r)
    else
      let (m, r) ← readZeros? fuel r
      pure (n + m, r)

/-- The symbols one after the other, in reverse order, until no state is left. -/
def readCounts? (maxSymbol : Nat) :
    (fuel left : Nat) → Distribution → BitReader → Option (Distribution × BitReader)
  | 0, _, _, _ => none
  | fuel + 1, left, done, r =>
    if left = 0 then some (done, r)
    else if done.length > maxSymbol then none
    else do
      let (n, r) ← readUpTo? (left + 1) r
      if n = 0 then readCounts? maxSymbol fuel (left - 1) (none :: done) r
      else if n = 1 then
        let (zeros, r) ← readZeros? (maxSymbol + 1) r
        readCounts? maxSymbol fuel left (List.replicate (zeros + 1) (some 0) ++ done) r
      else readCounts? maxSymbol fuel (left - (n - 1)) (some (n - 1) :: done) r

/-- A machine, and the octets behind its description. -/
def readMachine? (maxLog maxSymbol : Nat) (bs : Bytes) : Option (Machine × Bytes) := do
  let (n, r) ← nat? 4 (.ofBytes bs)
  let log := n + 5
  guard (log ≤ maxLog)
  let (reversed, r) ← readCounts? maxSymbol (maxSymbol + 2) (1 <<< log) [] r
  guard (reversed.length ≤ maxSymbol + 1)
  pure (.ofDistribution log reversed.reverse, r.align.rest)

end Fse

end EdgeFleet.Zstd
