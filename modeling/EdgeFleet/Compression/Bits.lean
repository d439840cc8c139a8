import EdgeFleet.Text.Bytes

/-! # Bits

Numbers and octets as bits, the least significant first, and a reader that takes the bits of an
input one by one.
-/

namespace EdgeFleet

namespace Bits

/-- The lowest `width` bits of a number. -/
def ofNat (width n : Nat) : List Bool := (List.range width).map n.testBit

/-- The number that bits spell. -/
def toNat (bs : List Bool) : Nat := bs.foldr (fun b n => b.toNat + 2 * n) 0

/-- The number that bits spell when the most significant comes first. -/
def toNatFromHigh (bs : List Bool) : Nat := bs.foldl (fun n b => b.toNat + 2 * n) 0

def ofOctet (b : UInt8) : List Bool := ofNat 8 b.toNat

/-- Puts bits into octets; the last one is filled up with zeros. -/
def pack (bs : List Bool) : Bytes :=
  match bs with
  | [] => []
  | b :: bs => (toNat (b :: bs.take 7)).toUInt8 :: pack (bs.drop 7)
termination_by bs.length

end Bits

/-- What is left of an input: the bits of an octet that is begun, and whole octets. -/
structure BitReader where
  pending : List Bool
  rest : Bytes

namespace BitReader

def ofBytes (bs : Bytes) : BitReader := ⟨[], bs⟩

/-- All bits that are left. -/
def bits (r : BitReader) : List Bool := r.pending ++ r.rest.flatMap Bits.ofOctet

def next? : BitReader → Option (Bool × BitReader)
  | ⟨b :: bs, rest⟩ => some (b, ⟨bs, rest⟩)
  | ⟨[], x :: rest⟩ => match Bits.ofOctet x with
    | b :: bs => some (b, ⟨bs, rest⟩)
    | [] => none
  | ⟨[], []⟩ => none

/-- The next `n` bits. -/
def take? : Nat → BitReader → Option (List Bool × BitReader)
  | 0, r => some ([], r)
  | n + 1, r => do
    let (b, r) ← r.next?
    let (bs, r) ← take? n r
    pure (b :: bs, r)

/-- A number of `n` bits. -/
def nat? (n : Nat) (r : BitReader) : Option (Nat × BitReader) :=
  (take? n r).map fun (bs, r) => (Bits.toNat bs, r)

/-- Leaves out what is left of an octet that is begun. -/
def align (r : BitReader) : BitReader := ⟨[], r.rest⟩

/-- The next `n` octets after the one that is begun. -/
def octets? (n : Nat) (r : BitReader) : Option (Bytes × BitReader) :=
  let taken := r.rest.take n
  if taken.length = n then some (taken, ⟨[], r.rest.drop n⟩) else none

end BitReader

/-! ## Bands of numbers -/

/-- Compressed formats write a number as the band it lies in and its place in the band. A band holds as many
numbers as its extra bits can tell apart. -/
structure Band where
  base : Nat
  extra : Nat
  deriving DecidableEq

namespace Band

/-- Bands one after the other, the first beginning at `base`. -/
def consecutive (base : Nat) : (extras : List Nat) → List Band
  | [] => []
  | e :: es => ⟨base, e⟩ :: consecutive (base + (1 <<< e)) es

/-- The last band that does not begin above `n`, with its index. -/
def locate? (bands : List Band) (n : Nat) : Option (Nat × Band) :=
  (bands.zipIdx.reverse.find? fun e => e.1.base ≤ n).map fun e => (e.2, e.1)

end Band

end EdgeFleet
