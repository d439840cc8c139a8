import EdgeFleet.Text.Decimal
import EdgeFleet.Text.Hex
import Mathlib.Algebra.Ring.Nat

/-! # Numerals read back -/

namespace EdgeFleet

/-! ## Decimal numerals -/

namespace Decimal

theorem isDigit_iff (c : Char) : isDigit c = true ↔ 48 ≤ c.toNat ∧ c.toNat ≤ 57 := by
  simp only [isDigit, decide_eq_true_eq, Char.le_def, UInt32.le_iff_toNat_le]
  rfl

theorem isDigit_of_mem_digits {n : Nat} {c : Char} (h : c ∈ digits n) : isDigit c = true := by
  have hc : c.isDigit = true := Nat.isDigit_of_mem_toDigits (by decide) (by decide) h
  rw [isDigit_iff]
  simpa [Char.isDigit, UInt32.le_iff_toNat_le] using hc

theorem digits_ne_nil (n : Nat) : digits n ≠ [] := Nat.toDigits_ne_nil

theorem ofDigits_eq (cs : List Char) : ofDigits cs = Nat.ofDigitChars 10 cs 0 :=
  Nat.ofDigitChars_eq_foldl.symm

theorem ofDigits_digits (n : Nat) : ofDigits (digits n) = n := by
  rw [ofDigits_eq]
  exact Nat.ofDigitChars_ten_toDigits

/-- A numeral of more than one digit does not begin with a zero. -/
theorem head?_digits {n : Nat} (h : (digits n).head? = some '0') : (digits n).length = 1 := by
  induction n using Nat.strongRecOn with
  | ind n ih =>
      by_cases hn : n < 10
      · rw [digits, Nat.toDigits_of_lt_base hn]
        rfl
      · have hstep : digits n = digits (n / 10) ++ [(n % 10).digitChar] :=
          Nat.toDigits_of_base_le (by decide) (by omega)
        have hhead : (digits (n / 10)).head? = some '0' := by
          rw [hstep] at h
          cases hd : digits (n / 10) with
          | nil => exact absurd hd (digits_ne_nil _)
          | cons c cs => simpa [hd] using h
        have hlength := ih (n / 10) (by omega) hhead
        -- A single zero stands for nothing, so the front part would be empty.
        have hzero : digits (n / 10) = ['0'] := by
          obtain ⟨c, hc⟩ := List.length_eq_one_iff.mp hlength
          rw [hc] at hhead ⊢
          cases hhead
          rfl
        have hvalue := ofDigits_digits (n / 10)
        rw [hzero] at hvalue
        have : ofDigits ['0'] = 0 := rfl
        omega

theorem parse?_render (n : Nat) : parse? (render n) = some n := by
  have hall : (digits n).all isDigit = true :=
    List.all_eq_true.mpr fun c hc => isDigit_of_mem_digits hc
  rw [parse?, render, String.toList_ofList]
  split
  · next cs hcs =>
    have hplus : '+' ∈ digits n := by simp [hcs]
    exact absurd (isDigit_of_mem_digits hplus) (by decide)
  · rw [if_pos ⟨digits_ne_nil n, hall⟩, ofDigits_digits]

theorem parseBelow?_render (bound n : Nat) :
    parseBelow? bound (render n) = if n < bound then some n else none := by
  rw [parseBelow?, parse?_render]
  by_cases h : n < bound <;> simp [h, Option.filter]

theorem render_injective {m n : Nat} (h : render m = render n) : m = n :=
  Option.some.inj (by rw [← parse?_render m, h, parse?_render])

/-! ## Numerals of a fixed width -/

theorem ofDigits_padded (width n : Nat) : ofDigits (padded width n) = n := by
  rw [padded, ofDigits_eq, Nat.ofDigitChars_append, Nat.ofDigitChars_replicate_zero, Nat.mul_zero]
  exact Nat.ofDigitChars_ten_toDigits

theorem length_padded {width n : Nat} (hw : 0 < width) (h : n < 10 ^ width) :
    (padded width n).length = width := by
  have hlength : (digits n).length ≤ width := (Nat.length_toDigits_le_iff (by decide) hw).mpr h
  rw [padded, List.length_append, List.length_replicate]
  omega

theorem all_isDigit_padded (width n : Nat) : (padded width n).all isDigit = true := by
  rw [List.all_eq_true]
  intro c hc
  rcases List.mem_append.mp hc with hc | hc
  · rw [List.eq_of_mem_replicate hc]
    rfl
  · exact isDigit_of_mem_digits hc

end Decimal

/-! ## Hexadecimal digits -/

theorem Hex.value?_digit {n : Nat} (h : n < 16) : Hex.value? (octet (Hex.digit n)) = some n := by
  have hall : ∀ n < 16, Hex.value? (octet (Hex.digit n)) = some n := by decide
  exact hall n h

end EdgeFleet
