import EdgeFleet.Compression.Huffman
import EdgeFleet.Compression.Zstd.Fse

/-! # Literals of a zstd block

The octets that the sequences of a block draw on: as they stand, one octet repeated, or in a prefix
code, which is described before them or taken over from an earlier block. Code lengths are given as
weights; that of the last symbol follows from the others.
-/

namespace EdgeFleet.Zstd

/-! ## Weights -/

/-- Two machines take turns until the stream has no bits for the next state; then the other one's
symbol is the last. -/
def readTurns? (m : Fse.Machine) :
    (fuel : Nat) → (state other : Nat) → List Bool → List Nat → Option (List Nat)
  | 0, _, _, _, _ => none
  | fuel + 1, state, other, bits, done =>
    let done := (m.cell state).symbol :: done
    match m.step? state bits with
    | none => some ((m.cell other).symbol :: done).reverse
    | some (state, bits) => readTurns? m fuel other state bits done

def maxWeights : Nat := 255

/-- The weights in a stream of their own. -/
def readCodedWeights? (bs : Bytes) : Option (List Nat) := do
  let (m, stream) ← Fse.readMachine? 6 255 bs
  let bits ← backward? stream
  let (first, bits) ← m.start? bits
  let (second, bits) ← m.start? bits
  readTurns? m (maxWeights - 1) first second bits []

def nibbles (bs : Bytes) : List Nat := bs.flatMap fun b => [b.toNat / 16, b.toNat % 16]

/-- The weights that are given, and the octets behind them. -/
def readWeights? (bs : Bytes) : Option (List Nat × Bytes) := do
  let (size, bs) ← cut? 1 bs
  let n := ofLittleEndian size
  if n < 128 then
    let (coded, bs) ← cut? n bs
    pure (← readCodedWeights? coded, bs)
  else
    let count := n - 127
    let (given, bs) ← cut? ((count + 1) / 2) bs
    pure ((nibbles given).take count, bs)

def weightShare (w : Nat) : Nat := (1 <<< w) / 2

/-- The greatest length of a code word. -/
def maxCodeLength : Nat := 12

/-- The code of the given weights: the last symbol takes what is left of the next power of two, which
has to be a power of two itself. -/
def codeOfWeights? (given : List Nat) : Option CodeTree := do
  guard (given.all (· ≤ maxCodeLength))
  let total := given.foldr (fun w n => weightShare w + n) 0
  guard (0 < total)
  let longest := total.log2 + 1
  guard (longest ≤ maxCodeLength)
  let left := (1 <<< longest) - total
  guard (1 <<< left.log2 = left)
  let weights := given ++ [left.log2 + 1]
  let ones := weights.count 1
  guard (2 ≤ ones ∧ ones % 2 = 0)
  let lengths := weights.map fun w => if w = 0 then 0 else longest + 1 - w
  pure (.ofLengths longest (byLengthDescending longest lengths))

/-- A code, and the octets behind its description. -/
def readCode? (bs : Bytes) : Option (CodeTree × Bytes) := do
  let (weights, bs) ← readWeights? bs
  pure (← codeOfWeights? weights, bs)

/-! ## Coded literals -/

/-- `n` symbols, which use up all bits. -/
def readCoded? (code : CodeTree) : (n : Nat) → List Bool → Option Bytes
  | 0, bits => if bits = [] then some [] else none
  | n + 1, bits => do
    let (symbol, bits) ← code.decode? backwardNext? bits
    let rest ← readCoded? code n bits
    pure (symbol.toUInt8 :: rest)

def readStream? (code : CodeTree) (n : Nat) (bs : Bytes) : Option Bytes := do
  readCoded? code n (← backward? bs)

/-- Four streams, each but the last with a quarter of the symbols. The sizes of three are given. -/
def readFourStreams? (code : CodeTree) (n : Nat) (bs : Bytes) : Option Bytes := do
  guard (6 ≤ n ∧ 10 ≤ bs.length)
  let (size1, bs) ← cut? 2 bs
  let (size2, bs) ← cut? 2 bs
  let (size3, bs) ← cut? 2 bs
  let (stream1, bs) ← cut? (ofLittleEndian size1) bs
  let (stream2, bs) ← cut? (ofLittleEndian size2) bs
  let (stream3, stream4) ← cut? (ofLittleEndian size3) bs
  let quarter := (n + 3) / 4
  let part1 ← readStream? code quarter stream1
  let part2 ← readStream? code quarter stream2
  let part3 ← readStream? code quarter stream3
  let part4 ← readStream? code (n - 3 * quarter) stream4
  pure (part1 ++ part2 ++ part3 ++ part4)

/-! ## The section -/

/-- Literals, the code that is in force after them, and the octets behind them. -/
structure LiteralsSection where
  literals : Bytes
  code : Option CodeTree
  rest : Bytes

/-- A number in the bits of the next octets, without the lowest four. -/
def readHeader? (width : Nat) (bs : Bytes) : Option (Nat × Bytes) :=
  (cut? width bs).map fun (h, bs) => (ofLittleEndian h / 16, bs)

/-- The size of literals without a code. -/
def readPlainSize? (format : Nat) (bs : Bytes) : Option (Nat × Bytes) :=
  match format with
  | 1 => readHeader? 2 bs
  | 3 => readHeader? 3 bs
  | _ => (cut? 1 bs).map fun (h, bs) => (ofLittleEndian h / 8, bs)

/-- Two sizes of so many bits. -/
def readTwoSizes? (width bits : Nat) (bs : Bytes) : Option (Nat × Nat × Bytes) :=
  (readHeader? width bs).map fun (n, bs) => (n % (1 <<< bits), (n >>> bits) % (1 <<< bits), bs)

/-- The size of coded literals, and that of their code. -/
def readCodedSizes? (format : Nat) (bs : Bytes) : Option (Nat × Nat × Bytes) :=
  match format with
  | 2 => readTwoSizes? 4 14 bs
  | 3 => readTwoSizes? 5 18 bs
  | _ => readTwoSizes? 3 10 bs

/-- Literals in a code of their own or in the code in force. -/
def readCodedLiterals? (fresh : Bool) (format limit : Nat) (code : Option CodeTree) (bs : Bytes) :
    Option LiteralsSection := do
  let (size, coded, bs) ← readCodedSizes? format bs
  guard (size ≤ limit)
  let (section1, rest) ← cut? coded bs
  let (code, streams) ← if fresh then readCode? section1 else code.map (·, section1)
  let literals ← if format = 0 then readStream? code size streams
    else readFourStreams? code size streams
  pure ⟨literals, some code, rest⟩

/-- The literals of a block that may hold up to `limit` octets. -/
def readLiterals? (limit : Nat) (code : Option CodeTree) (bs : Bytes) : Option LiteralsSection := do
  guard (2 ≤ bs.length)
  let first := (bs.headD 0).toNat
  let format := first / 4 % 4
  match first % 4 with
  | 0 => do
    let (size, bs) ← readPlainSize? format bs
    guard (size ≤ limit)
    let (literals, rest) ← cut? size bs
    pure ⟨literals, code, rest⟩
  | 1 => do
    let (size, bs) ← readPlainSize? format bs
    guard (size ≤ limit)
    let (octet, rest) ← cut? 1 bs
    pure ⟨List.replicate size (octet.headD 0), code, rest⟩
  | 2 => readCodedLiterals? true format limit code bs
  | _ => readCodedLiterals? false format limit code bs

end EdgeFleet.Zstd
