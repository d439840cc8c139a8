import EdgeFleet.Compression.Huffman

/-! # The alphabets of the deflate format

Literals and lengths share one alphabet: the octets, an end mark, and the bands of lengths.
Distances have an alphabet of their own.
-/

namespace EdgeFleet.Deflate

def endMark : Nat := 256

/-- Lengths of copies. The greatest length has a band of its own. -/
def lengthBands : List Band :=
  Band.consecutive 3 ((List.range 28).map fun k => k / 4 - 1) ++ [⟨258, 0⟩]

def distanceBands : List Band :=
  Band.consecutive 1 ((List.range 30).map fun k => k / 2 - 1)

/-- The code of blocks that bring none: literals and lengths. -/
def fixedLengths : List Nat :=
  List.replicate 144 8 ++ List.replicate 112 9 ++ List.replicate 24 7 ++ List.replicate 8 8

def maxLength : Nat := 15

/-- The two codes of a block. -/
structure Codes where
  literals : CodeTree
  distances : CodeTree

def treeOf (lengths : List Nat) : CodeTree :=
  .ofLengths maxLength (byLength maxLength lengths)

def fixedCodes : Codes := ⟨treeOf fixedLengths, treeOf (List.replicate 32 5)⟩

end EdgeFleet.Deflate
