import EdgeFleet.Proofs.Text.Numerals
import EdgeFleet.Time.Rfc3339
import Mathlib.Data.List.TakeWhile
import Mathlib.Data.Option.Basic

/-! # Written timestamps read back -/

namespace EdgeFleet.Timestamp

open Decimal (padded isDigit ofDigits)

/-! ## Parts -/

theorem takeNumber?_padded (width n : Nat) (hw : 0 < width) (h : n < 10 ^ width) (cs : List Char) :
    takeNumber? width (padded width n ++ cs) = some (n, cs) := by
  have hlength := Decimal.length_padded hw h
  have htake : (padded width n ++ cs).take width = padded width n :=
    List.take_left' hlength
  have hdrop : (padded width n ++ cs).drop width = cs := List.drop_left' hlength
  simp [takeNumber?, htake, hdrop, hlength, Decimal.all_isDigit_padded, Decimal.ofDigits_padded]

theorem expect?_cons (c : Char) (cs : List Char) : expect? c (c :: cs) = some cs := by
  simp [expect?]

/-- Only zeros are left out of a fraction. -/
theorem fractionDigits_append (nano : Nat) :
    ∃ zeros, fractionDigits nano ++ List.replicate zeros '0' = padded 9 nano := by
  have hsplit : (padded 9 nano).reverse.takeWhile (· = '0') ++
      (padded 9 nano).reverse.dropWhile (· = '0') = (padded 9 nano).reverse :=
    List.takeWhile_append_dropWhile
  have hzeros : ∀ c ∈ (padded 9 nano).reverse.takeWhile (· = '0'), c = '0' := fun c hc => by
    simpa using List.mem_takeWhile_imp hc
  refine ⟨((padded 9 nano).reverse.takeWhile (· = '0')).length, ?_⟩
  have hreverse := congrArg List.reverse hsplit
  rw [List.reverse_append, List.reverse_reverse, List.eq_replicate_of_mem hzeros,
    List.reverse_replicate] at hreverse
  exact hreverse

theorem takeFraction?_fractionDigits {nano : Nat} (hpos : nano ≠ 0) (h : nano < 1000000000)
    {cs : List Char} (hcs : ∀ c ∈ cs.head?, isDigit c = false) :
    takeFraction? ('.' :: (fractionDigits nano ++ cs)) = some (nano, cs) := by
  obtain ⟨zeros, hzeros⟩ := fractionDigits_append nano
  have hlength : (padded 9 nano).length = 9 := Decimal.length_padded (by decide) h
  have hdigits : ∀ c ∈ fractionDigits nano, isDigit c = true := by
    intro c hc
    refine List.all_eq_true.mp (Decimal.all_isDigit_padded 9 nano) c ?_
    rw [← hzeros]
    exact List.mem_append_left _ hc
  have hne : fractionDigits nano ≠ [] := by
    intro hnil
    rw [hnil, List.nil_append] at hzeros
    have hvalue := Decimal.ofDigits_padded 9 nano
    rw [← hzeros, Decimal.ofDigits_eq, Nat.ofDigitChars_replicate_zero] at hvalue
    omega
  have hstop : cs.takeWhile isDigit = [] ∧ cs.dropWhile isDigit = cs := by
    cases cs with
    | nil => exact ⟨rfl, rfl⟩
    | cons c cs =>
        have hc : isDigit c = false := hcs c (by simp)
        simp [hc]
  have htake : (fractionDigits nano ++ List.replicate 9 '0').take 9 = padded 9 nano := by
    have hzeros9 : zeros ≤ 9 := by
      have := congrArg List.length hzeros
      rw [List.length_append, List.length_replicate, hlength] at this
      omega
    have hnine : List.replicate 9 '0' = List.replicate zeros '0' ++ List.replicate (9 - zeros) '0' := by
      rw [List.replicate_append_replicate]
      congr 1
      omega
    rw [hnine, ← List.append_assoc, hzeros]
    exact List.take_left' hlength
  have htakeWhile : (fractionDigits nano ++ cs).takeWhile isDigit = fractionDigits nano := by
    rw [List.takeWhile_append_of_pos hdigits, hstop.1, List.append_nil]
  have hdropWhile : (fractionDigits nano ++ cs).dropWhile isDigit = cs := by
    rw [List.dropWhile_append_of_pos hdigits, hstop.2]
  simp only [takeFraction?, htakeWhile, hdropWhile, if_neg hne, htake, Decimal.ofDigits_padded]

theorem head?_offsetChars (offset : Int) : ∀ c ∈ (offsetChars offset).head?, isDigit c = false ∧ c ≠ '.' := by
  intro c hc
  rw [offsetChars] at hc
  split at hc
  · cases hc
    decide
  · split at hc <;> · cases hc; decide

theorem readOffset?_sign {sign : Char} (hsign : sign = '+' ∨ sign = '-') {hours minutes : Nat}
    (hhours : hours ≤ 23) (hminutes : minutes ≤ 59) :
    readOffset? (sign :: (padded 2 hours ++ ':' :: padded 2 minutes)) =
      some (if sign = '-' then -((60 * hours + minutes : Nat) : Int) else (60 * hours + minutes : Nat)) := by
  have hfront := takeNumber?_padded 2 hours (by decide) (by omega) (':' :: padded 2 minutes)
  have hback := takeNumber?_padded 2 minutes (by decide) (by omega) []
  rw [List.append_nil] at hback
  have hne : padded 2 hours ++ ':' :: padded 2 minutes ≠ [] := by simp
  unfold readOffset?
  split
  · next heq => exact absurd (List.cons.inj heq).2 hne
  · next heq => exact absurd (List.cons.inj heq).2 hne
  · next sign' cs _ _ heq =>
    obtain ⟨rfl, rfl⟩ := List.cons.inj heq
    simp only [hfront, hback, expect?_cons, Option.bind_eq_bind, Option.bind_some]
    rcases hsign with rfl | rfl <;> simp [guard, hhours, hminutes]
  · next heq => exact absurd heq (by simp)

theorem readOffset?_offsetChars {offset : Int} (h : offset.natAbs < 1440) :
    readOffset? (offsetChars offset) = some offset := by
  rw [offsetChars]
  by_cases hzero : offset = 0
  · rw [if_pos hzero, hzero]
    rfl
  · rw [if_neg hzero, readOffset?_sign (by split <;> simp) (by omega) (by omega)]
    by_cases hneg : offset < 0
    · simp only [hneg, if_true, Option.some.injEq]
      omega
    · simp only [hneg, if_false, Option.some.injEq]
      rw [if_neg (by decide)]
      omega

/-! ## Whole timestamps -/

theorem ofChars?_toChars (t : Timestamp) : ofChars? t.toChars = some t := by
  obtain ⟨hyear, hmonth, hmonth', hday, hday'⟩ := t.inCalendar
  obtain ⟨hhour, hminute, hsecond, hnano, hoffset⟩ := t.onClock
  have hdays : Calendar.daysIn t.year t.month ≤ 31 := by
    unfold Calendar.daysIn
    split
    · split <;> omega
    · split <;> omega
  have hfraction : takeFraction? ((if t.nano = 0 then [] else '.' :: fractionDigits t.nano) ++
      offsetChars t.offset) = some (t.nano, offsetChars t.offset) := by
    by_cases hzero : t.nano = 0
    · rw [if_pos hzero, List.nil_append, hzero]
      cases hcs : offsetChars t.offset with
      | nil => rfl
      | cons c cs =>
          have hc := (head?_offsetChars t.offset c (by simp [hcs])).2
          unfold takeFraction?
          split
          · next heq => exact absurd (List.cons.inj heq).1 hc
          · rfl
    · rw [if_neg hzero]
      exact takeFraction?_fractionDigits hzero hnano fun c hc => (head?_offsetChars t.offset c hc).1
  have hleap : t.second ≠ 60 := by omega
  have hfour : ∀ rest, takeNumber? 4 (padded 4 t.year ++ rest) = some (t.year, rest) :=
    fun rest => takeNumber?_padded 4 t.year (by decide) (by omega) rest
  have htwo : ∀ n < 100, ∀ rest, takeNumber? 2 (padded 2 n ++ rest) = some (n, rest) :=
    fun n hn rest => takeNumber?_padded 2 n (by decide) (by omega) rest
  simp only [toChars, List.append_assoc, List.cons_append]
  -- One step for each part of the text.
  refine Option.bind_eq_some_iff.mpr ⟨_, hfour _, ?_⟩
  refine Option.bind_eq_some_iff.mpr ⟨_, expect?_cons _ _, ?_⟩
  refine Option.bind_eq_some_iff.mpr ⟨_, htwo t.month (by omega) _, ?_⟩
  refine Option.bind_eq_some_iff.mpr ⟨_, expect?_cons _ _, ?_⟩
  refine Option.bind_eq_some_iff.mpr ⟨_, htwo t.day (by omega) _, ?_⟩
  refine Option.bind_eq_some_iff.mpr ⟨_, rfl, ?_⟩
  refine Option.bind_eq_some_iff.mpr ⟨_, htwo t.hour (by omega) _, ?_⟩
  refine Option.bind_eq_some_iff.mpr ⟨_, expect?_cons _ _, ?_⟩
  refine Option.bind_eq_some_iff.mpr ⟨_, htwo t.minute (by omega) _, ?_⟩
  refine Option.bind_eq_some_iff.mpr ⟨_, expect?_cons _ _, ?_⟩
  refine Option.bind_eq_some_iff.mpr ⟨_, htwo t.second (by omega) _, ?_⟩
  refine Option.bind_eq_some_iff.mpr ⟨_, hfraction, ?_⟩
  refine Option.bind_eq_some_iff.mpr ⟨_, readOffset?_offsetChars hoffset, ?_⟩
  exact (if_neg hleap).trans (of?_self t)

/-- A timestamp is read back from its text, with its fraction and its offset. -/
theorem parse?_render (t : Timestamp) : parse? t.render = some t := by
  rw [parse?, render, String.toList_ofList, ofChars?_toChars]

end EdgeFleet.Timestamp
