import EdgeFleet.Compression.Huffman
import Mathlib.Algebra.Ring.Nat

/-! # Packed bits are read back

A reader spells the bits that are left to it. Reading one of them, a number or a code word leaves a
reader that spells the others.
-/

namespace EdgeFleet

/-! ## Numbers as bits -/

namespace Bits

theorem ofNat_succ (width n : Nat) : ofNat (width + 1) n = n.testBit 0 :: ofNat width (n / 2) := by
  rw [ofNat, List.range_succ_eq_map, List.map_cons, List.map_map]
  congr 1
  refine List.map_congr_left fun i _ => ?_
  rw [Function.comp_apply, Nat.testBit_succ]

theorem length_ofNat (width n : Nat) : (ofNat width n).length = width := by
  simp [ofNat]

theorem ofNat_zero (width : Nat) : ofNat width 0 = List.replicate width false := by
  simp [ofNat, List.eq_replicate_iff]

theorem toNat_ofNat {width n : Nat} (h : n < 2 ^ width) : toNat (ofNat width n) = n := by
  induction width generalizing n with
  | zero =>
      have hn : n = 0 := by simpa using h
      rw [hn]
      rfl
  | succ width ih =>
      have hhalf : n / 2 < 2 ^ width := by
        rw [Nat.pow_succ] at h
        omega
      rw [ofNat_succ, toNat, List.foldr_cons, ← toNat, ih hhalf, Nat.testBit_zero]
      have := Nat.mod_two_eq_zero_or_one n
      rcases this with hmod | hmod <;> simp [hmod] <;> omega

/-- Bits are filled up with zeros. -/
theorem ofNat_toNat {width : Nat} {bs : List Bool} (h : bs.length ≤ width) :
    ofNat width (toNat bs) = bs ++ List.replicate (width - bs.length) false := by
  induction bs generalizing width with
  | nil => exact ofNat_zero width
  | cons b bs ih =>
      cases width with
      | zero => simp at h
      | succ width =>
          have hlow : (b.toNat + 2 * toNat bs).testBit 0 = b := by
            rw [Nat.testBit_zero]
            cases b <;> simp
          have hhigh : (b.toNat + 2 * toNat bs) / 2 = toNat bs := by
            cases b <;> simp
            omega
          have hlength : bs.length ≤ width := Nat.le_of_succ_le_succ h
          rw [toNat, List.foldr_cons, ← toNat, ofNat_succ, hlow, hhigh, ih hlength, List.length_cons,
            Nat.succ_sub_succ, List.cons_append]

theorem toNat_lt (bs : List Bool) : toNat bs < 2 ^ bs.length := by
  induction bs with
  | nil => exact Nat.one_pos
  | cons b bs ih =>
      rw [toNat, List.foldr_cons, ← toNat, List.length_cons, Nat.pow_succ]
      cases b <;> simp <;> omega

theorem length_ofOctet (x : UInt8) : (ofOctet x).length = 8 := length_ofNat 8 x.toNat

theorem ofOctet_injective {x y : UInt8} (h : ofOctet x = ofOctet y) : x = y := by
  have hx := toNat_ofNat (n := x.toNat) (by simpa using x.toNat_lt : x.toNat < 2 ^ 8)
  have hy := toNat_ofNat (n := y.toNat) (by simpa using y.toNat_lt : y.toNat < 2 ^ 8)
  rw [ofOctet, ofOctet] at h
  exact UInt8.toNat_inj.mp (by rw [← hx, h, hy])

theorem length_flatMap_ofOctet (xs : Bytes) : (xs.flatMap ofOctet).length = 8 * xs.length := by
  induction xs with
  | nil => rfl
  | cons x xs ih =>
      rw [List.flatMap_cons, List.length_append, ih, length_ofOctet, List.length_cons]
      omega

theorem flatMap_ofOctet_injective {xs ys : Bytes} (h : xs.flatMap ofOctet = ys.flatMap ofOctet) :
    xs = ys := by
  induction xs generalizing ys with
  | nil =>
      cases ys with
      | nil => rfl
      | cons y ys =>
          have hlength := congrArg List.length h
          rw [length_flatMap_ofOctet, length_flatMap_ofOctet] at hlength
          simp at hlength
  | cons x xs ih =>
      cases ys with
      | nil =>
          have hlength := congrArg List.length h
          rw [length_flatMap_ofOctet, length_flatMap_ofOctet] at hlength
          simp at hlength
      | cons y ys =>
          rw [List.flatMap_cons, List.flatMap_cons] at h
          obtain ⟨hhead, htail⟩ := List.append_inj h (by simp [length_ofOctet])
          rw [ofOctet_injective hhead, ih htail]

/-- Packed octets hold the bits and less than an octet of zeros. -/
theorem bits_pack (bs : List Bool) :
    ∃ zeros < 8, (pack bs).flatMap ofOctet = bs ++ List.replicate zeros false := by
  induction bs using pack.induct with
  | case1 => exact ⟨0, by decide, by rw [pack]; rfl⟩
  | case2 b bs ih =>
      obtain ⟨zeros, hzeros, hrest⟩ := ih
      have hlt : toNat (b :: bs.take 7) < 2 ^ 8 :=
        Nat.lt_of_lt_of_le (toNat_lt _)
          (Nat.pow_le_pow_right (by decide) (by simp only [List.length_cons, List.length_take]; omega))
      have hoctet : ofOctet (toNat (b :: bs.take 7)).toUInt8 = ofNat 8 (toNat (b :: bs.take 7)) := by
        rw [ofOctet, Nat.toUInt8, UInt8.toNat_ofNat', Nat.mod_eq_of_lt hlt]
      rw [pack, List.flatMap_cons, hoctet,
        ofNat_toNat (by simp only [List.length_cons, List.length_take]; omega), hrest]
      by_cases hlong : 7 ≤ bs.length
      · refine ⟨zeros, hzeros, ?_⟩
        have htake : (bs.take 7).length = 7 := by rw [List.length_take]; omega
        rw [List.length_cons, htake, Nat.sub_self, List.replicate_zero, List.append_nil,
          List.cons_append, ← List.append_assoc, List.take_append_drop, List.cons_append]
      · have htake : bs.take 7 = bs := List.take_of_length_le (by omega)
        have hdrop : bs.drop 7 = [] := List.drop_of_length_le (by omega)
        -- The last octet is filled up, and nothing follows it.
        have hnone : zeros = 0 := by
          have := congrArg List.length hrest
          rw [hdrop, pack] at this
          simpa using this.symm
        refine ⟨8 - (bs.length + 1), by omega, ?_⟩
        rw [htake, hdrop, hnone, List.length_cons]
        simp

end Bits

/-! ## Readers -/

namespace BitReader

/-- The bits that are left, when less than an octet is begun. -/
structure Spells (r : BitReader) (bs : List Bool) : Prop where
  bits : r.bits = bs
  pending : r.pending.length < 8

theorem spells_ofBytes (xs : Bytes) : (ofBytes xs).Spells (xs.flatMap Bits.ofOctet) :=
  ⟨rfl, Nat.zero_lt_succ 7⟩

namespace Spells

variable {r : BitReader} {bs : List Bool}

theorem next {b : Bool} (h : r.Spells (b :: bs)) : ∃ r', r.next? = some (b, r') ∧ r'.Spells bs := by
  obtain ⟨pending, rest⟩ := r
  obtain ⟨hbits, hpending⟩ := h
  cases pending with
  | cons c cs =>
      simp only [BitReader.bits, List.cons_append, List.cons.injEq] at hbits
      obtain ⟨rfl, hbits⟩ := hbits
      exact ⟨_, rfl, hbits, Nat.lt_of_succ_lt hpending⟩
  | nil =>
      cases rest with
      | nil => simp [BitReader.bits] at hbits
      | cons x rest =>
          have hlength := Bits.length_ofOctet x
          cases hoctet : Bits.ofOctet x with
          | nil => simp [hoctet] at hlength
          | cons c cs =>
              rw [hoctet] at hlength
              simp only [BitReader.bits, List.nil_append, List.flatMap_cons, hoctet, List.cons_append,
                List.cons.injEq] at hbits
              obtain ⟨rfl, hbits⟩ := hbits
              refine ⟨⟨cs, rest⟩, by simp [next?, hoctet], hbits, ?_⟩
              rw [List.length_cons] at hlength
              show cs.length < 8
              omega

theorem take {front : List Bool} (h : r.Spells (front ++ bs)) :
    ∃ r', r.take? front.length = some (front, r') ∧ r'.Spells bs := by
  induction front generalizing r with
  | nil => exact ⟨r, rfl, h⟩
  | cons b front ih =>
      obtain ⟨r₁, hnext, h₁⟩ := h.next
      obtain ⟨r₂, htake, h₂⟩ := ih h₁
      exact ⟨r₂, by simp [take?, hnext, htake], h₂⟩

theorem nat {width n : Nat} (hn : n < 2 ^ width) (h : r.Spells (Bits.ofNat width n ++ bs)) :
    ∃ r', r.nat? width = some (n, r') ∧ r'.Spells bs := by
  obtain ⟨r', htake, h'⟩ := h.take
  rw [Bits.length_ofNat] at htake
  exact ⟨r', by simp [nat?, htake, Bits.toNat_ofNat hn], h'⟩

/-- A code word is decoded whatever follows it. -/
theorem decode {tree : CodeTree} {symbol : Nat} {word : List Bool} (hword : (symbol, word) ∈ tree.words)
    (h : r.Spells (word ++ bs)) :
    ∃ r', tree.decode? next? r = some (symbol, r') ∧ r'.Spells bs := by
  induction tree generalizing r word with
  | none => simp [CodeTree.words] at hword
  | leaf s =>
      simp only [CodeTree.words, List.mem_singleton, Prod.mk.injEq] at hword
      obtain ⟨rfl, rfl⟩ := hword
      exact ⟨r, rfl, h⟩
  | node zero one ihzero ihone =>
      simp only [CodeTree.words, List.mem_append, List.mem_map, Prod.mk.injEq] at hword
      rcases hword with ⟨⟨s, w⟩, hmem, rfl, rfl⟩ | ⟨⟨s, w⟩, hmem, rfl, rfl⟩
      · obtain ⟨r₁, hnext, h₁⟩ := next h
        obtain ⟨r₂, hdecode, h₂⟩ := ihzero hmem h₁
        exact ⟨r₂, by simp [CodeTree.decode?, hnext, hdecode], h₂⟩
      · obtain ⟨r₁, hnext, h₁⟩ := next h
        obtain ⟨r₂, hdecode, h₂⟩ := ihone hmem h₁
        exact ⟨r₂, by simp [CodeTree.decode?, hnext, hdecode], h₂⟩

/-- Where only the rest of an octet is left before whole octets, those are what follows. -/
theorem align_rest {zeros : List Bool} {xs : Bytes} (hzeros : zeros.length < 8)
    (h : r.Spells (zeros ++ xs.flatMap Bits.ofOctet)) : r.align.rest = xs := by
  have hbits : r.pending ++ r.rest.flatMap Bits.ofOctet = zeros ++ xs.flatMap Bits.ofOctet := h.bits
  have hlength := congrArg List.length hbits
  rw [List.length_append, List.length_append, Bits.length_flatMap_ofOctet,
    Bits.length_flatMap_ofOctet] at hlength
  have hpending := h.pending
  have hsame : r.pending.length = zeros.length := by omega
  exact Bits.flatMap_ofOctet_injective (List.append_inj hbits hsame).2

end Spells

end BitReader

end EdgeFleet
