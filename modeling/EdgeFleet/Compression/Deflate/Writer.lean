import EdgeFleet.Compression.Deflate.Symbols
import EdgeFleet.Compression.Lz77

/-! # Writing the deflate format

The data is written as one block of repetitions and literals in the fixed code.
-/

namespace EdgeFleet.Deflate

/-- The code words of a tree by symbol. -/
def wordTable (tree : CodeTree) : Array (List Bool) :=
  tree.words.foldl (fun t e => t.setIfInBounds e.1 e.2) (Array.replicate 288 [])

def literalWords : Array (List Bool) := wordTable fixedCodes.literals

def distanceWords : Array (List Bool) := wordTable fixedCodes.distances

/-- A number as the code word of its band and its place in the band. `first` is the symbol of the
first band. -/
def bandBits (words : Array (List Bool)) (bands : List Band) (first n : Nat) : List Bool :=
  match Band.locate? bands n with
  | some (k, band) => words.getD (first + k) [] ++ Bits.ofNat band.extra (n - band.base)
  | none => []

def tokenBits : Lz77.Token → List Bool
  | .literal b => literalWords.getD b.toNat []
  | .copy length distance =>
    bandBits literalWords lengthBands (endMark + 1) length ++
      bandBits distanceWords distanceBands 0 distance

/-- The greatest length and distance of a copy. -/
def maxCopy : Nat := 258
def window : Nat := 32768

/-- The bits of a final block in the fixed code. -/
def blockBits (ts : List Lz77.Token) : List Bool :=
  [true, true, false] ++ ts.flatMap tokenBits ++ literalWords.getD endMark []

def encode (data : Bytes) : Bytes :=
  Bits.pack (blockBits (Lz77.tokens maxCopy window data.toArray))

end EdgeFleet.Deflate
