import EdgeFleet.Compression.Deflate.Reader
import EdgeFleet.Compression.Deflate.Writer

/-! # The gzip format

A header, a deflate stream, and a trailer with the checksum and the size of the data. Only the first
member of an input is read; what follows it is ignored.
-/

/-! ## CRC-32 -/

namespace EdgeFleet.Crc32

/-- One step of the division by the reversed polynomial. -/
def shift (c : UInt32) : UInt32 :=
  if c &&& 1 = 1 then (c >>> 1) ^^^ 0xEDB88320 else c >>> 1

def table : Array UInt32 :=
  (Array.range 256).map fun n => (List.range 8).foldl (fun c _ => shift c) n.toUInt32

def update (c : UInt32) (b : UInt8) : UInt32 :=
  table.getD ((c ^^^ b.toUInt32) &&& 0xFF).toNat 0 ^^^ (c >>> 8)

def checksum (bs : Bytes) : UInt32 := bs.foldl update 0xFFFFFFFF ^^^ 0xFFFFFFFF

end EdgeFleet.Crc32

/-! ## Members -/

namespace EdgeFleet.Gzip

/-- A header without name, comment or time. -/
def header : Bytes := [0x1F, 0x8B, 8, 0, 0, 0, 0, 0, 0, 255]

def trailer (data : Bytes) : Bytes :=
  littleEndian 4 (Crc32.checksum data).toNat ++ littleEndian 4 data.length

def encode (data : Bytes) : Bytes := header ++ Deflate.encode data ++ trailer data

/-! ## Reading -/

/-- What follows the next zero. -/
def skipText? : Bytes → Option Bytes
  | [] => none
  | 0 :: rest => some rest
  | _ :: rest => skipText? rest

/-- Leaves out an optional part of the header. -/
def skipWhen (present : Bool) (skip? : Bytes → Option Bytes) (bs : Bytes) : Option Bytes :=
  if present then skip? bs else some bs

def skipExtra? (bs : Bytes) : Option Bytes := do
  let (size, bs) ← cut? 2 bs
  let (_, bs) ← cut? (ofLittleEndian size) bs
  pure bs

/-- Checks the checksum of all that stands before it in `whole`. -/
def skipChecksum? (whole bs : Bytes) : Option Bytes := do
  let (sum, rest) ← cut? 2 bs
  let covered := whole.take (whole.length - bs.length)
  guard (ofLittleEndian sum = (Crc32.checksum covered).toNat % 65536)
  pure rest

/-- What follows the header. -/
def skipHeader? (whole : Bytes) : Option Bytes := do
  let (front, bs) ← cut? 10 whole
  guard (front.take 3 = [0x1F, 0x8B, 8])
  let flags := (front.getD 3 0).toNat
  guard (flags < 0x20)
  let bs ← skipWhen (flags.testBit 2) skipExtra? bs
  let bs ← skipWhen (flags.testBit 3) skipText? bs
  let bs ← skipWhen (flags.testBit 4) skipText? bs
  skipWhen (flags.testBit 1) (skipChecksum? whole) bs

def decode? (bs : Bytes) : Option Bytes := do
  let bs ← skipHeader? bs
  let (data, rest) ← Deflate.decode? bs
  let (sums, _) ← cut? 8 rest
  guard (sums = trailer data)
  pure data

end EdgeFleet.Gzip
