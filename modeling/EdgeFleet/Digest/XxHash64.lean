import EdgeFleet.Text.Bytes

/-! # The 64-bit xxHash with seed zero

Whole stripes of four words run through four accumulators; what is left is mixed in afterwards, in
words, a half word and octets.
-/

namespace EdgeFleet.XxHash64

def prime1 : UInt64 := 11400714785074694791
def prime2 : UInt64 := 14029467366897019727
def prime3 : UInt64 := 1609587929392839161
def prime4 : UInt64 := 9650029242287828579
def prime5 : UInt64 := 2870177450012600261

def rotate (x : UInt64) (n : UInt64) : UInt64 := (x <<< n) ||| (x >>> (64 - n))

def word (bs : Bytes) : UInt64 := (ofLittleEndian bs).toUInt64

def round (acc lane : UInt64) : UInt64 := rotate (acc + lane * prime2) 31 * prime1

structure Lanes where
  first : UInt64
  second : UInt64
  third : UInt64
  fourth : UInt64

namespace Lanes

def start : Lanes := ⟨prime1 + prime2, prime2, 0, 0 - prime1⟩

/-- Takes in a stripe of 32 octets. -/
def stripe (l : Lanes) (bs : Bytes) : Lanes :=
  ⟨round l.first (word (bs.take 8)), round l.second (word ((bs.drop 8).take 8)),
    round l.third (word ((bs.drop 16).take 8)), round l.fourth (word ((bs.drop 24).take 8))⟩

/-- Takes in all whole stripes; yields the octets that are left, too. -/
def stripes (l : Lanes) (bs : Bytes) : Lanes × Bytes :=
  if bs.length < 32 then (l, bs) else stripes (l.stripe (bs.take 32)) (bs.drop 32)
termination_by bs.length
decreasing_by simp only [List.length_drop]; omega

def merge (l : Lanes) : UInt64 :=
  [l.first, l.second, l.third, l.fourth].foldl (fun acc v => (acc ^^^ round 0 v) * prime1 + prime4)
    (rotate l.first 1 + rotate l.second 7 + rotate l.third 12 + rotate l.fourth 18)

end Lanes

def mixOctet (acc : UInt64) (b : UInt8) : UInt64 :=
  rotate (acc ^^^ b.toUInt64 * prime5) 11 * prime1

/-- Mixes in what is left of a stripe. -/
def mixRest (acc : UInt64) (bs : Bytes) : UInt64 :=
  if 8 ≤ bs.length then
    mixRest (rotate (acc ^^^ round 0 (word (bs.take 8))) 27 * prime1 + prime4) (bs.drop 8)
  else if 4 ≤ bs.length then
    (bs.drop 4).foldl mixOctet (rotate (acc ^^^ word (bs.take 4) * prime1) 23 * prime2 + prime3)
  else bs.foldl mixOctet acc
termination_by bs.length
decreasing_by simp only [List.length_drop]; omega

def avalanche (h : UInt64) : UInt64 :=
  let h := (h ^^^ (h >>> 33)) * prime2
  let h := (h ^^^ (h >>> 29)) * prime3
  h ^^^ (h >>> 32)

def digest (bs : Bytes) : UInt64 :=
  let (lanes, rest) := Lanes.start.stripes bs
  let acc := if bs.length < 32 then prime5 else lanes.merge
  avalanche (mixRest (acc + bs.length.toUInt64) rest)

end EdgeFleet.XxHash64
