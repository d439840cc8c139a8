import EdgeFleet.Compression.Zstd.Literals
import EdgeFleet.Compression.Zstd.Sequences
import EdgeFleet.Digest.XxHash64

/-! # The zstd format

An input is a run of frames, some of which only carry octets to be skipped. A frame has a header, a
run of blocks and perhaps a checksum. It is written with a window of one block and without its size,
as blocks that hold one octet repeated or the octets as they stand.
-/

namespace EdgeFleet.Zstd

/-- The greatest number of octets in a block. -/
def maxBlock : Nat := 128 * 1024

/-- The greatest window that is provided when the size of the data is not known. -/
def maxWindow : Nat := (1 <<< 27) + 1

def frameMark : Nat := 0xFD2FB528

/-- Marks that begin frames to be skipped. -/
def isSkipMark (n : Nat) : Bool := n / 16 = 0x184D2A5

/-! ## Reading -/

structure FrameHeader where
  window : Nat
  contentSize : Option Nat
  hasChecksum : Bool

def readNumber? (width : Nat) (bs : Bytes) : Option (Nat × Bytes) :=
  (cut? width bs).map fun (n, bs) => (ofLittleEndian n, bs)

/-- The size of the window: a power of two and some eighths of it. -/
def readWindow? (bs : Bytes) : Option (Nat × Bytes) := do
  let (n, bs) ← readNumber? 1 bs
  let log := n / 8 + 10
  guard (log ≤ 31)
  pure ((1 <<< log) + (1 <<< log) / 8 * (n % 8), bs)

/-- How many octets give the size of the data. -/
def sizeWidth (kind : Nat) (isSingle : Bool) : Nat :=
  match kind with
  | 0 => if isSingle then 1 else 0
  | 1 => 2
  | 2 => 4
  | _ => 8

def readFrameHeader? (bs : Bytes) : Option (FrameHeader × Bytes) := do
  let (flags, bs) ← readNumber? 1 bs
  guard (¬flags.testBit 3)
  let isSingle := flags.testBit 5
  let (given, bs) ← if isSingle then pure (0, bs) else readWindow? bs
  let (dictionary, bs) ← readNumber? ([0, 1, 2, 4].getD (flags % 4) 0) bs
  guard (dictionary = 0)
  let width := sizeWidth (flags / 64) isSingle
  let (size, bs) ← readNumber? width bs
  let size := if width = 2 then size + 256 else size
  guard (width ≠ 0 ∨ given ≤ maxWindow)
  pure (⟨if isSingle then size else given, if width = 0 then none else some size, flags.testBit 2⟩, bs)

/-- The content of a block in the code of the format. -/
def readContent? (limit : Nat) (carried : Carried) (content : Bytes) (out : Array UInt8) :
    Option (Array UInt8 × Carried) := do
  let s ← readLiterals? limit carried.code content
  runSection? { carried with code := s.code } s.literals s.rest out

/-- One block of at most `limit` octets: whether it is the last one, the data after it, and the octets
behind it. -/
def readBlock? (limit : Nat) (carried : Carried) (bs : Bytes) (out : Array UInt8) :
    Option (Bool × Array UInt8 × Carried × Bytes) := do
  let (header, bs) ← readNumber? 3 bs
  let size := header / 8
  guard (size ≤ limit)
  let isLast := header.testBit 0
  match header / 2 % 4 with
  | 0 => do
    let (content, bs) ← cut? size bs
    pure (isLast, out ++ content.toArray, carried, bs)
  | 1 => do
    let (octet, bs) ← cut? 1 bs
    pure (isLast, out ++ Array.replicate size (octet.headD 0), carried, bs)
  | 2 => do
    let (content, bs) ← cut? size bs
    let (grown, carried) ← readContent? limit carried content out
    guard (grown.size - out.size ≤ limit)
    pure (isLast, grown, carried, bs)
  | _ => none

/-- Blocks up to the last one. -/
def readBlocks? (limit : Nat) :
    (fuel : Nat) → Carried → Bytes → Array UInt8 → Option (Array UInt8 × Bytes)
  | 0, _, _, _ => none
  | fuel + 1, carried, bs, out => do
    let (isLast, out, carried, bs) ← readBlock? limit carried bs out
    if isLast then some (out, bs) else readBlocks? limit fuel carried bs out

/-- What follows the mark of a frame: the data, and the octets behind the frame. -/
def readFrame? (bs : Bytes) : Option (Bytes × Bytes) := do
  let (header, bs) ← readFrameHeader? bs
  let (out, bs) ← readBlocks? (min header.window maxBlock) (bs.length + 1) .start bs #[]
  guard (header.contentSize.all (· = out.size))
  let data := out.toList
  if header.hasChecksum then
    let (sum, bs) ← readNumber? 4 bs
    guard (sum = (XxHash64.digest data).toNat % UInt32.size)
    pure (data, bs)
  else pure (data, bs)

/-- One frame with its mark. A frame to be skipped holds no data. -/
def readMarked? (bs : Bytes) : Option (Bytes × Bytes) := do
  let (mark, bs) ← readNumber? 4 bs
  if mark = frameMark then readFrame? bs
  else if isSkipMark mark then
    let (size, bs) ← readNumber? 4 bs
    let (_, bs) ← cut? size bs
    pure ([], bs)
  else none

/-- All frames up to the end. There has to be one. -/
def readFrames? : (fuel : Nat) → Bytes → Option Bytes
  | 0, _ => none
  | fuel + 1, bs => do
    let (data, bs) ← readMarked? bs
    if bs = [] then pure data else (readFrames? fuel bs).map (data ++ ·)

def decode? (bs : Bytes) : Option Bytes := readFrames? (bs.length + 1) bs

/-! ## Writing -/

/-- The header of a block: whether it is the last one, its kind and its size. -/
def blockHeader (isLast : Bool) (kind size : Nat) : Bytes :=
  littleEndian 3 (isLast.toNat + 2 * kind + 8 * size)

/-- One block. One octet repeated is written once. -/
def block (isLast : Bool) (data : Bytes) : Bytes :=
  match data with
  | b :: rest =>
    if rest.all (· = b) then blockHeader isLast 1 data.length ++ [b]
    else blockHeader isLast 0 data.length ++ data
  | [] => blockHeader isLast 0 0

/-- All the data as blocks; without data there is an empty block. -/
def blocks (data : Bytes) : Bytes :=
  if data.length ≤ maxBlock then block true data
  else block false (data.take maxBlock) ++ blocks (data.drop maxBlock)
termination_by data.length
decreasing_by simp only [List.length_drop, maxBlock] at *; omega

/-- The header of a frame with a window of one block, of 2 to the power of 17 octets. -/
def frameHeader : Bytes := [0, 56]

/-- One frame. -/
def encode (data : Bytes) : Bytes :=
  littleEndian 4 frameMark ++ frameHeader ++ blocks data

end EdgeFleet.Zstd
