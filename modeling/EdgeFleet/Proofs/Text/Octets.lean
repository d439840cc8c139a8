import EdgeFleet.Text.Base64
import EdgeFleet.Text.Bytes
import Mathlib.Algebra.Ring.Nat
import Mathlib.Data.Option.Basic

/-! # Octets read back -/

namespace EdgeFleet

theorem cut?_append {n : Nat} {front : Bytes} (h : front.length = n) (rest : Bytes) :
    cut? n (front ++ rest) = some (front, rest) := by
  simp only [cut?, List.take_left' h, List.drop_left' h, if_pos h]

/-! ## ASCII -/

theorem utf8_append (s t : String) : utf8 (s ++ t) = utf8 s ++ utf8 t := by
  simp [utf8, String.toUTF8]

theorem utf8_ofNat {n : Nat} (h : n < 128) : utf8 (String.ofList [Char.ofNat n]) = [n.toUInt8] := by
  have hall : ∀ n < 128, utf8 (String.ofList [Char.ofNat n]) = [n.toUInt8] := by decide +kernel
  exact hall n h

theorem exists_utf8_eq {bs : Bytes} (h : ∀ b ∈ bs, b.toNat < 128) : ∃ s, utf8 s = bs := by
  induction bs with
  | nil => exact ⟨"", rfl⟩
  | cons b bs ih =>
      obtain ⟨s, hs⟩ := ih fun b' hb => h b' (List.mem_cons_of_mem _ hb)
      refine ⟨String.ofList [Char.ofNat b.toNat] ++ s, ?_⟩
      rw [utf8_append, utf8_ofNat (h b List.mem_cons_self), hs]
      simp

/-! ## Numbers -/

theorem length_littleEndian (width n : Nat) : (littleEndian width n).length = width := by
  simp [littleEndian]

theorem littleEndian_succ (width n : Nat) :
    littleEndian (width + 1) n = n.toUInt8 :: littleEndian width (n / 256) := by
  rw [littleEndian, List.range_succ_eq_map, List.map_cons, List.map_map]
  congr 1
  refine List.map_congr_left fun i _ => ?_
  have hshift : n >>> (8 * (i + 1)) = (n / 256) >>> (8 * i) := by
    rw [Nat.mul_succ, Nat.add_comm, Nat.shiftRight_add, Nat.shiftRight_eq_div_pow n 8]
  rw [Function.comp_apply, hshift]

theorem ofLittleEndian_littleEndian {width n : Nat} (h : n < 256 ^ width) :
    ofLittleEndian (littleEndian width n) = n := by
  induction width generalizing n with
  | zero =>
      have hn : n = 0 := by simpa using h
      rw [hn]
      rfl
  | succ width ih =>
      have hhigh : n / 256 < 256 ^ width := by
        rw [Nat.pow_succ] at h
        omega
      rw [littleEndian_succ, ofLittleEndian, List.foldr_cons, ← ofLittleEndian, ih hhigh, Nat.toUInt8,
        UInt8.toNat_ofNat']
      omega

/-! ## Base64 -/

namespace Base64

theorem value?_digit {n : Nat} (h : n < 64) : value? (digit n) = some n := by
  have hall : ∀ n < 64, value? (digit n) = some n := by decide
  exact hall n h

theorem digit_ne_padding {n : Nat} (h : n < 64) : digit n ≠ octet '=' := by
  have hall : ∀ n < 64, digit n ≠ octet '=' := by decide
  exact hall n h

theorem digit_lt {n : Nat} (h : n < 64) : (digit n).toNat < 128 := by
  have hall : ∀ n < 64, (digit n).toNat < 128 := by decide
  exact hall n h

theorem toUInt8_eq {n : Nat} {x : UInt8} (h : n = x.toNat) : n.toUInt8 = x := by
  rw [h]
  exact UInt8.ofNat_toNat

/-- A group of three octets is read back, whatever follows it. -/
theorem decode?_group (a b c : UInt8) {rest bs : Bytes} (h : decode? rest = some bs) :
    decode? (digit (a.toNat / 4) :: digit (a.toNat % 4 * 16 + b.toNat / 16) ::
      digit (b.toNat % 16 * 4 + c.toNat / 64) :: digit (c.toNat % 64) :: rest) =
      some (a :: b :: c :: bs) := by
  have ha := a.toNat_lt
  have hb := b.toNat_lt
  have hc := c.toNat_lt
  have hw : value? (digit (a.toNat / 4)) = some _ := value?_digit (by omega)
  have hx : value? (digit (a.toNat % 4 * 16 + b.toNat / 16)) = some _ := value?_digit (by omega)
  have hy : value? (digit (b.toNat % 16 * 4 + c.toNat / 64)) = some _ := value?_digit (by omega)
  have hz : value? (digit (c.toNat % 64)) = some _ := value?_digit (by omega)
  have hfirst : (a.toNat / 4 * 4 + (a.toNat % 4 * 16 + b.toNat / 16) / 16).toUInt8 = a :=
    toUInt8_eq (by omega)
  have hsecond : ((a.toNat % 4 * 16 + b.toNat / 16) % 16 * 16 +
      (b.toNat % 16 * 4 + c.toNat / 64) / 4).toUInt8 = b := toUInt8_eq (by omega)
  have hthird : ((b.toNat % 16 * 4 + c.toNat / 64) % 4 * 64 + c.toNat % 64).toUInt8 = c :=
    toUInt8_eq (by omega)
  cases rest with
  | nil =>
      have hbs : bs = [] := (Option.some.inj h).symm
      have hne : digit (c.toNat % 64) ≠ octet '=' := digit_ne_padding (by omega)
      simp only [decode?, decodeLast?, hw, hx, hy, hz, hne, and_false, if_false, hfirst, hsecond,
        hthird, hbs, Option.bind_eq_bind, Option.bind_some, Option.pure_def]
  | cons d rest => simp only [decode?, hw, hx, hy, hz, h, hfirst, hsecond, hthird]

theorem decode?_encode (bs : Bytes) : decode? (encode bs) = some bs := by
  induction bs using encode.induct with
  | case1 => rfl
  | case2 a =>
      have ha := a.toNat_lt
      have hw : value? (digit (a.toNat / 4)) = some _ := value?_digit (by omega)
      have hx : value? (digit (a.toNat % 4 * 16)) = some _ := value?_digit (by omega)
      have hfirst : (a.toNat / 4 * 4 + a.toNat % 4 * 16 / 16).toUInt8 = a := toUInt8_eq (by omega)
      have hspare : a.toNat % 4 * 16 % 16 = 0 := Nat.mul_mod_left _ _
      simp only [encode, decode?, decodeLast?, hw, hx, and_self, if_true, guard, hspare, hfirst,
        Option.bind_eq_bind, Option.bind_some, Option.pure_def]
  | case3 a b =>
      have ha := a.toNat_lt
      have hb := b.toNat_lt
      have hw : value? (digit (a.toNat / 4)) = some _ := value?_digit (by omega)
      have hx : value? (digit (a.toNat % 4 * 16 + b.toNat / 16)) = some _ := value?_digit (by omega)
      have hy : value? (digit (b.toNat % 16 * 4)) = some _ := value?_digit (by omega)
      have hne : digit (b.toNat % 16 * 4) ≠ octet '=' := digit_ne_padding (by omega)
      have hfirst : (a.toNat / 4 * 4 + (a.toNat % 4 * 16 + b.toNat / 16) / 16).toUInt8 = a :=
        toUInt8_eq (by omega)
      have hsecond : ((a.toNat % 4 * 16 + b.toNat / 16) % 16 * 16 + b.toNat % 16 * 4 / 4).toUInt8 = b :=
        toUInt8_eq (by omega)
      have hspare : b.toNat % 16 * 4 % 4 = 0 := Nat.mul_mod_left _ _
      simp only [encode, decode?, decodeLast?, hw, hx, hy, hne, false_and, if_false, if_true, guard,
        hspare, hfirst, hsecond, Option.bind_eq_bind, Option.bind_some, Option.pure_def]
  | case4 a b c rest ih => exact decode?_group a b c ih

theorem encode_lt (bs : Bytes) : ∀ b ∈ encode bs, b.toNat < 128 := by
  induction bs using encode.induct with
  | case1 => simp [encode]
  | case2 a =>
      have ha := a.toNat_lt
      simp only [encode, List.forall_mem_cons]
      exact ⟨digit_lt (by omega), digit_lt (by omega), by decide, by decide, by simp⟩
  | case3 a b =>
      have ha := a.toNat_lt
      have hb := b.toNat_lt
      simp only [encode, List.forall_mem_cons]
      exact ⟨digit_lt (by omega), digit_lt (by omega), digit_lt (by omega), by decide, by simp⟩
  | case4 a b c rest ih =>
      have ha := a.toNat_lt
      have hb := b.toNat_lt
      have hc := c.toNat_lt
      simp only [encode, List.forall_mem_cons]
      exact ⟨digit_lt (by omega), digit_lt (by omega), digit_lt (by omega), digit_lt (by omega), ih⟩

/-- The digits are a text, so a record can carry them. -/
theorem decode?_utf8_text? (bs : Bytes) : decode? (utf8 ((text? (encode bs)).getD "")) = some bs := by
  obtain ⟨s, hs⟩ := exists_utf8_eq (encode_lt bs)
  rw [← hs, text?_utf8, Option.getD_some, hs, decode?_encode]

end Base64

end EdgeFleet
