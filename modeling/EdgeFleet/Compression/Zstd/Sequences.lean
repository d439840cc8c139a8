import EdgeFleet.Compression.Huffman
import EdgeFleet.Compression.Lz77
import EdgeFleet.Compression.Zstd.Fse

/-! # Sequences of a zstd block

A sequence is a run of literals followed by a copy. Its three numbers come from three machines that
share one stream; a distance may be one of the last three.
-/

namespace EdgeFleet.Zstd

open Fse (Machine)

/-! ## Bands -/

/-- Numbers of literals. -/
def literalBands : List Band :=
  Band.consecutive 0 (List.replicate 16 0 ++ [1, 1, 1, 1, 2, 2, 3, 3, 4, 6, 7, 8, 9, 10, 11, 12, 13,
    14, 15, 16])

/-- Lengths of copies. -/
def copyBands : List Band :=
  Band.consecutive 3 (List.replicate 32 0 ++ [1, 1, 1, 1, 2, 2, 3, 3, 4, 4, 5, 7, 8, 9, 10, 11, 12, 13,
    14, 15, 16])

/-! ## Machines -/

/-- The machines of the three numbers. -/
structure Machines (α : Type) where
  literals : α
  offsets : α
  copies : α

def literalDefault : Machine :=
  .ofDistribution 6 (([4, 3] ++ List.replicate 11 2 ++ [1, 1, 1] ++ List.replicate 9 2 ++ [3, 2] ++
    List.replicate 5 1).map some ++ List.replicate 4 none)

def offsetDefault : Machine :=
  .ofDistribution 5 ((List.replicate 6 1 ++ [2, 2, 2] ++ List.replicate 15 1).map some ++
    List.replicate 5 none)

def copyDefault : Machine :=
  .ofDistribution 6 (([1, 4, 3, 2, 2, 2, 2, 2, 2] ++ List.replicate 37 1).map some ++
    List.replicate 7 none)

/-- A machine is the standard one, repeats a symbol, is described, or stays as it was. -/
def readTable? (kind maxLog maxSymbol : Nat) (standard : Machine) (previous : Option Machine)
    (bs : Bytes) : Option (Machine × Bytes) :=
  match kind with
  | 0 => some (standard, bs)
  | 1 => do
    let (symbol, bs) ← cut? 1 bs
    let symbol := ofLittleEndian symbol
    guard (symbol ≤ maxSymbol)
    pure (.constant symbol, bs)
  | 2 => Fse.readMachine? maxLog maxSymbol bs
  | _ => previous.map (·, bs)

/-! ## Distances -/

/-- The last three distances, the latest first. -/
structure Recent where
  first : Nat
  second : Nat
  third : Nat
  deriving DecidableEq

namespace Recent

def start : Recent := ⟨1, 4, 8⟩

def push (r : Recent) (distance : Nat) : Recent := ⟨distance, r.first, r.second⟩

/-- What a number of the stream stands for. The three lowest name recent distances; without literals
before the copy the latest one is left out, and the one below it comes last. -/
def resolve (r : Recent) (n : Nat) (noLiterals : Bool) : Nat × Recent :=
  if n > 3 then (n - 3, r.push (n - 3))
  else match n + noLiterals.toNat with
    | 1 => (r.first, r)
    | 2 => (r.second, ⟨r.second, r.first, r.third⟩)
    | 3 => (r.third, r.push r.third)
    | _ => (r.first - 1, r.push (r.first - 1))

end Recent

/-! ## Running a block -/

/-- What one block hands on to the next. -/
structure Carried where
  code : Option CodeTree
  machines : Machines (Option Machine)
  recent : Recent

def Carried.start : Carried := ⟨none, ⟨none, none, none⟩, .start⟩

structure Run where
  out : Array UInt8
  literals : Bytes
  recent : Recent

/-- Literals, then a copy that may not reach back before the data. -/
def Run.sequence? (run : Run) (literals copyLength offset : Nat) : Option Run := do
  let (taken, rest) ← cut? literals run.literals
  let out := run.out ++ taken.toArray
  let (distance, recent) := run.recent.resolve offset (literals = 0)
  guard (0 < distance ∧ distance ≤ out.size)
  pure ⟨Lz77.copy distance copyLength out, rest, recent⟩

/-- The number that a symbol begins. -/
def bandNat? (bands : List Band) (symbol : Nat) (bits : List Bool) : Option (Nat × List Bool) := do
  let band ← bands[symbol]?
  let (n, bits) ← backwardNat? band.extra bits
  pure (band.base + n, bits)

/-- Runs `n` sequences, which use up all bits. -/
def runSequences? (ms : Machines Machine) :
    (n : Nat) → Machines Nat → List Bool → Run → Option Run
  | 0, _, bits, run => if bits = [] then some run else none
  | n + 1, states, bits, run => do
    let offsetBits := (ms.offsets.cell states.offsets).symbol
    let (low, bits) ← backwardNat? offsetBits bits
    let (copyLength, bits) ← bandNat? copyBands (ms.copies.cell states.copies).symbol bits
    let (literals, bits) ← bandNat? literalBands (ms.literals.cell states.literals).symbol bits
    let run ← run.sequence? literals copyLength ((1 <<< offsetBits) + low)
    if n = 0 then runSequences? ms n states bits run
    else
      let (l, bits) ← ms.literals.step? states.literals bits
      let (c, bits) ← ms.copies.step? states.copies bits
      let (o, bits) ← ms.offsets.step? states.offsets bits
      runSequences? ms n ⟨l, o, c⟩ bits run

/-- How many sequences there are. -/
def readCount? (bs : Bytes) : Option (Nat × Bytes) := do
  let (first, bs) ← cut? 1 bs
  let n := ofLittleEndian first
  if n < 128 then pure (n, bs)
  else if n < 255 then
    let (low, bs) ← cut? 1 bs
    pure ((n - 128) * 256 + ofLittleEndian low, bs)
  else
    let (more, bs) ← cut? 2 bs
    pure (ofLittleEndian more + 0x7F00, bs)

/-- The machines of a block, and the stream behind their descriptions. -/
def readMachines? (previous : Machines (Option Machine)) (bs : Bytes) :
    Option (Machines Machine × Bytes) := do
  let (kinds, bs) ← cut? 1 bs
  let kinds := ofLittleEndian kinds
  guard (kinds % 4 = 0)
  let (l, bs) ← readTable? (kinds / 64) 9 35 literalDefault previous.literals bs
  let (o, bs) ← readTable? (kinds / 16 % 4) 8 31 offsetDefault previous.offsets bs
  let (c, bs) ← readTable? (kinds / 4 % 4) 9 52 copyDefault previous.copies bs
  pure (⟨l, o, c⟩, bs)

/-- The sequences of a block, applied to the data so far. Literals that are left stand at its end. -/
def runSection? (carried : Carried) (literals bs : Bytes) (out : Array UInt8) :
    Option (Array UInt8 × Carried) := do
  let (n, bs) ← readCount? bs
  if n = 0 then
    guard (bs = [])
    pure (out ++ literals.toArray, carried)
  else
    let (ms, stream) ← readMachines? carried.machines bs
    let bits ← backward? stream
    let (l, bits) ← ms.literals.start? bits
    let (o, bits) ← ms.offsets.start? bits
    let (c, bits) ← ms.copies.start? bits
    let run ← runSequences? ms n ⟨l, o, c⟩ bits ⟨out, literals, carried.recent⟩
    pure (run.out ++ run.literals.toArray,
      ⟨carried.code, ⟨some ms.literals, some ms.offsets, some ms.copies⟩, run.recent⟩)

end EdgeFleet.Zstd
