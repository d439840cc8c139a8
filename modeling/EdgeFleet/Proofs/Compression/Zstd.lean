import EdgeFleet.Compression.Zstd.Frame
import EdgeFleet.Proofs.Text.Octets

/-! # Data in a zstd frame is restored -/

namespace EdgeFleet.Zstd

theorem readNumber?_littleEndian {width n : Nat} (h : n < 256 ^ width) (rest : Bytes) :
    readNumber? width (littleEndian width n ++ rest) = some (n, rest) := by
  rw [readNumber?, cut?_append (length_littleEndian width n), Option.map_some]
  simp only [ofLittleEndian_littleEndian h]

/-! ## Blocks -/

/-- The header of a block tells whether it is the last one, its kind and its size. -/
theorem read_blockHeader (isLast : Bool) {kind size : Nat} (hkind : kind < 4) (hsize : size ≤ maxBlock)
    (rest : Bytes) :
    ∃ header, readNumber? 3 (blockHeader isLast kind size ++ rest) = some (header, rest) ∧
      header / 8 = size ∧ header.testBit 0 = isLast ∧ header / 2 % 4 = kind := by
  have hflag := isLast.toNat_lt
  simp only [maxBlock] at hsize
  refine ⟨isLast.toNat + 2 * kind + 8 * size, readNumber?_littleEndian (by omega) rest, by omega, ?_,
    by omega⟩
  rw [Nat.testBit_zero]
  cases isLast <;> simp <;> omega

theorem readBlock?_block (isLast : Bool) {data : Bytes} (h : data.length ≤ maxBlock) (carried : Carried)
    (rest : Bytes) (out : Array UInt8) :
    readBlock? maxBlock carried (block isLast data ++ rest) out =
      some (isLast, out ++ data.toArray, carried, rest) := by
  cases data with
  | nil =>
      obtain ⟨header, hread, hsize, hlast, hkind⟩ :=
        read_blockHeader isLast (show 0 < 4 by decide) (Nat.zero_le maxBlock) rest
      have hcut : cut? 0 rest = some ([], rest) := rfl
      rw [readBlock?, block, hread]
      simp only [Option.bind_eq_bind, Option.bind_some, hsize, hkind, hlast, hcut, guard, Nat.zero_le,
        if_true]
      rfl
  | cons b bs =>
      rw [block]
      split
      · next hrepeated =>
        obtain ⟨header, hread, hsize, hlast, hkind⟩ :=
          read_blockHeader isLast (show 1 < 4 by decide) h (b :: rest)
        have hcut : cut? 1 (b :: rest) = some ([b], rest) :=
          cut?_append (show [b].length = 1 from rfl) rest
        have hdata : Array.replicate (b :: bs).length b = (b :: bs).toArray := by
          have hall : ∀ c ∈ b :: bs, c = b := by simpa using hrepeated
          rw [List.eq_replicate_of_mem hall]
          simp
        rw [readBlock?, List.append_assoc, List.singleton_append, hread]
        simp only [Option.bind_eq_bind, Option.bind_some, hsize, hkind, hlast, hcut, guard, if_pos h,
          Option.pure_def, List.headD_cons, hdata]
      · obtain ⟨header, hread, hsize, hlast, hkind⟩ :=
          read_blockHeader isLast (show 0 < 4 by decide) h (b :: bs ++ rest)
        have hcut : cut? (b :: bs).length (b :: bs ++ rest) = some (b :: bs, rest) := cut?_append rfl rest
        rw [readBlock?, List.append_assoc, hread]
        simp only [Option.bind_eq_bind, Option.bind_some, hsize, hkind, hlast, hcut, guard, if_pos h,
          Option.pure_def]

theorem block_ne_nil (isLast : Bool) (data : Bytes) : block isLast data ≠ [] := by
  intro hnil
  have hlength := congrArg List.length hnil
  rw [block.eq_def] at hlength
  split at hlength
  · split at hlength <;> simp [blockHeader, length_littleEndian] at hlength
  · simp [blockHeader, length_littleEndian] at hlength

theorem readBlocks?_blocks (data : Bytes) {fuel : Nat} (hfuel : (blocks data).length < fuel)
    (carried : Carried) (rest : Bytes) (out : Array UInt8) :
    readBlocks? maxBlock fuel carried (blocks data ++ rest) out = some (out ++ data.toArray, rest) := by
  induction data using blocks.induct generalizing fuel carried out with
  | case1 data hshort =>
      obtain ⟨fuel, rfl⟩ := Nat.exists_eq_succ_of_ne_zero (Nat.ne_of_gt (Nat.zero_lt_of_lt hfuel))
      rw [blocks, if_pos hshort, readBlocks?, readBlock?_block true hshort]
      rfl
  | case2 data hlong ih =>
      obtain ⟨fuel, rfl⟩ := Nat.exists_eq_succ_of_ne_zero (Nat.ne_of_gt (Nat.zero_lt_of_lt hfuel))
      have hfront : (data.take maxBlock).length ≤ maxBlock := List.length_take_le _ _
      rw [blocks, if_neg hlong] at hfuel ⊢
      have hpos := List.length_pos_iff.mpr (block_ne_nil false (data.take maxBlock))
      rw [List.length_append] at hfuel
      have hrest := ih (show (blocks (data.drop maxBlock)).length < fuel by omega) carried
        (out ++ (data.take maxBlock).toArray)
      have hdata : out ++ (data.take maxBlock).toArray ++ (data.drop maxBlock).toArray =
          out ++ data.toArray := by
        apply Array.toList_inj.mp
        simp
      rw [List.append_assoc, readBlocks?, readBlock?_block false hfront]
      simp only [Option.bind_eq_bind, Option.bind_some, Bool.false_eq_true, if_false, hrest, hdata]

/-! ## Frames -/

theorem readFrameHeader?_frameHeader (rest : Bytes) :
    readFrameHeader? (frameHeader ++ rest) = some (⟨maxBlock, none, false⟩, rest) := by
  have hflags : readNumber? 1 (frameHeader ++ rest) = some (0, 56 :: rest) := rfl
  have hoctet : readNumber? 1 (56 :: rest) = some (56, rest) := rfl
  have hnone : readNumber? 0 rest = some (0, rest) := rfl
  have hsize : (1 <<< (56 / 8 + 10)) + (1 <<< (56 / 8 + 10)) / 8 * (56 % 8) = maxBlock := by decide
  have hroom : maxBlock ≤ maxWindow := by decide
  have hwindow : readWindow? (56 :: rest) = some (maxBlock, rest) := by
    have hlog : 56 / 8 + 10 ≤ 31 := by decide
    simp only [readWindow?, hoctet, hsize, hlog, guard, if_true, Option.bind_eq_bind, Option.bind_some,
      Option.pure_def]
  simp only [readFrameHeader?, hflags, hwindow, hnone, hroom, sizeWidth, guard, Nat.zero_testBit,
    Nat.zero_mod, Nat.zero_div, List.getD_cons_zero, Option.bind_eq_bind, Option.bind_some,
    Option.pure_def, Bool.false_eq_true, not_false_eq_true, or_true, if_true, if_false]

theorem readMarked?_encode (data rest : Bytes) : readMarked? (encode data ++ rest) = some (data, rest) := by
  have hfuel : (blocks data).length < (blocks data ++ rest).length + 1 := by
    rw [List.length_append]
    omega
  have hframe : readFrame? (frameHeader ++ (blocks data ++ rest)) = some (data, rest) := by
    have hblocks := readBlocks?_blocks data hfuel .start rest #[]
    rw [readFrame?, readFrameHeader?_frameHeader]
    simp only [Option.bind_eq_bind, Option.bind_some, Nat.min_self, hblocks]
    simp [guard]
  rw [readMarked?, encode, List.append_assoc, List.append_assoc, readNumber?_littleEndian (by decide)]
  simp only [Option.bind_eq_bind, Option.bind_some, if_true, hframe]

theorem encode_ne_nil (data : Bytes) : encode data ≠ [] := by
  simp [encode, frameHeader]

/-- Frames are read one after another, as many as there are. -/
theorem readFrames?_encode {more : List Bytes} {fuel : Nat} (hfuel : more.length < fuel) (data : Bytes) :
    readFrames? fuel (encode data ++ more.flatMap encode) = some (data ++ more.flatten) := by
  induction more generalizing fuel data with
  | nil =>
      obtain ⟨fuel, rfl⟩ := Nat.exists_eq_succ_of_ne_zero (Nat.ne_of_gt (Nat.zero_lt_of_lt hfuel))
      rw [readFrames?, readMarked?_encode]
      simp
  | cons next more ih =>
      obtain ⟨fuel, rfl⟩ := Nat.exists_eq_succ_of_ne_zero (Nat.ne_of_gt (Nat.zero_lt_of_lt hfuel))
      have hne : encode next ++ more.flatMap encode ≠ [] := List.append_ne_nil_of_left_ne_nil (encode_ne_nil next) _
      rw [readFrames?, readMarked?_encode, List.flatMap_cons]
      simp [hne, ih (Nat.lt_of_succ_lt_succ hfuel) next]

theorem decode?_encode (data : Bytes) (more : List Bytes) :
    decode? (encode data ++ more.flatMap encode) = some (data ++ more.flatten) := by
  have hcount : more.length ≤ (more.flatMap encode).length := by
    induction more with
    | nil => exact Nat.le_refl 0
    | cons next more ih =>
        have hpos := List.length_pos_iff.mpr (encode_ne_nil next)
        rw [List.flatMap_cons, List.length_append, List.length_cons]
        omega
  refine readFrames?_encode ?_ data
  rw [List.length_append]
  omega

end EdgeFleet.Zstd
