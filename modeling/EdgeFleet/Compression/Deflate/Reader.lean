import EdgeFleet.Compression.Deflate.Symbols
import EdgeFleet.Compression.Lz77

/-! # Reading the deflate format

A stream is a run of blocks; what follows the final one is left to the caller. A copy that reaches
back before the beginning finds zeros there.
-/

namespace EdgeFleet.Deflate

open BitReader (next? nat? octets?)

/-- The number that a symbol of a banded alphabet begins. -/
def bandValue? (bands : List Band) (symbol : Nat) (r : BitReader) : Option (Nat × BitReader) := do
  let band ← bands[symbol]?
  let (offset, r) ← nat? band.extra r
  pure (band.base + offset, r)

/-- The symbols of a block up to its end mark. -/
def readSymbols? (codes : Codes) :
    (fuel : Nat) → BitReader → Array UInt8 → Option (BitReader × Array UInt8)
  | 0, _, _ => none
  | fuel + 1, r, out => do
    let (symbol, r) ← codes.literals.decode? next? r
    if symbol < endMark then readSymbols? codes fuel r (out.push symbol.toUInt8)
    else if symbol = endMark then some (r, out)
    else
      let (length, r) ← bandValue? lengthBands (symbol - endMark - 1) r
      let (symbol, r) ← codes.distances.decode? next? r
      let (distance, r) ← bandValue? distanceBands symbol r
      readSymbols? codes fuel r (Lz77.copy distance length out)

/-- A block of octets as they stand, with their number given twice, once inverted. -/
def readStored? (r : BitReader) (out : Array UInt8) : Option (BitReader × Array UInt8) := do
  let (size, r) ← nat? 16 r.align
  let (inverted, r) ← nat? 16 r
  guard (size + inverted = 0xFFFF)
  let (octets, r) ← octets? size r
  pure (r, out ++ octets.toArray)

/-! ## Blocks with codes of their own -/

/-- The order in which the lengths of the code for lengths are given. -/
def lengthOrder : List Nat := [16, 17, 18, 0, 8, 7, 9, 6, 10, 5, 11, 4, 12, 3, 13, 2, 14, 1, 15]

/-- `n` numbers of three bits. -/
def readTriples? : (n : Nat) → BitReader → Option (List Nat × BitReader)
  | 0, r => some ([], r)
  | n + 1, r => do
    let (l, r) ← nat? 3 r
    let (ls, r) ← readTriples? n r
    pure (l :: ls, r)

/-- Lengths by symbol from lengths in the order of the format. -/
def inSymbolOrder (lengths : List Nat) : List Nat :=
  (List.range 19).map fun s => ((lengthOrder.zip lengths).lookup s).getD 0

/-- Code lengths up to `count` of them, in reverse order. Three symbols stand for repetitions: of the
last length, of zero, and of many zeros. -/
def readLengths? (tree : CodeTree) (count : Nat) :
    (fuel : Nat) → List Nat → BitReader → Option (List Nat × BitReader)
  | 0, _, _ => none
  | fuel + 1, done, r =>
    if done.length = count then some (done, r)
    else if done.length > count then none
    else do
      let (symbol, r) ← tree.decode? next? r
      if symbol < 16 then readLengths? tree count fuel (symbol :: done) r
      else if symbol = 16 then
        let last ← done.head?
        let (n, r) ← nat? 2 r
        readLengths? tree count fuel (List.replicate (3 + n) last ++ done) r
      else if symbol = 17 then
        let (n, r) ← nat? 3 r
        readLengths? tree count fuel (List.replicate (3 + n) 0 ++ done) r
      else
        let (n, r) ← nat? 7 r
        readLengths? tree count fuel (List.replicate (11 + n) 0 ++ done) r

/-- A code may be incomplete only when it has at most one symbol. -/
def isUsable (lengths : List Nat) : Bool :=
  let code := byLength maxLength lengths
  CodeTree.isComplete maxLength code ∨ code.length ≤ 1

def readCodes? (r : BitReader) : Option (Codes × BitReader) := do
  let (literals, r) ← nat? 5 r
  let (distances, r) ← nat? 5 r
  let (given, r) ← nat? 4 r
  guard (literals + 257 ≤ 286 ∧ distances + 1 ≤ 30)
  let (triples, r) ← readTriples? (given + 4) r
  let lengths := inSymbolOrder triples
  guard (CodeTree.isComplete maxLength (byLength maxLength lengths))
  let count := literals + 257 + (distances + 1)
  let (reversed, r) ← readLengths? (treeOf lengths) count (count + 1) [] r
  let all := reversed.reverse
  let forLiterals := all.take (literals + 257)
  let forDistances := all.drop (literals + 257)
  guard (isUsable forLiterals ∧ isUsable forDistances)
  pure (⟨treeOf forLiterals, treeOf forDistances⟩, r)

/-! ## Streams -/

/-- One block, and whether it is the final one. -/
def readBlock? (fuel : Nat) (r : BitReader) (out : Array UInt8) :
    Option (Bool × BitReader × Array UInt8) := do
  let (final, r) ← next? r
  let (kind, r) ← nat? 2 r
  let (r, out) ← match kind with
    | 0 => readStored? r out
    | 1 => readSymbols? fixedCodes fuel r out
    | 2 => do
      let (codes, r) ← readCodes? r
      readSymbols? codes fuel r out
    | _ => none
  pure (final, r, out)

def readBlocks? (symbolFuel : Nat) :
    (fuel : Nat) → BitReader → Array UInt8 → Option (Array UInt8 × BitReader)
  | 0, _, _ => none
  | fuel + 1, r, out => do
    let (final, r, out) ← readBlock? symbolFuel r out
    if final then some (out, r) else readBlocks? symbolFuel fuel r out

/-- The data of a stream, and the octets behind it. Every block and every symbol takes a bit. -/
def decode? (bs : Bytes) : Option (Bytes × Bytes) :=
  let fuel := 8 * bs.length + 1
  (readBlocks? fuel fuel (.ofBytes bs) #[]).map fun (out, r) => (out.toList, r.align.rest)

end EdgeFleet.Deflate
