import EdgeFleet.Fleet.Filter
import Mathlib.Tactic.SplitIfs

/-! # The order of stamps

Stamps are ordered linearly, by sequence number and then by time, and the filter lets a report pass
exactly when its stamp comes after the stored one.
-/

namespace EdgeFleet

namespace Stamp

theorem before_iff (a b : Stamp) :
    a.Before b ↔ a.seqnum.toNat < b.seqnum.toNat ∨
      a.seqnum.toNat = b.seqnum.toNat ∧ a.timestamp.toInt < b.timestamp.toInt := by
  rw [Before, UInt64.lt_iff_toNat_lt, ← UInt64.toNat_inj, Int64.lt_iff_toInt_lt]

theorem Before.trans {a b c : Stamp} (h : a.Before b) (h' : b.Before c) : a.Before c := by
  rw [before_iff] at *
  omega

/-- What does not come after `a` comes before all that does. -/
theorem Before.of_not_before {a b c : Stamp} (h : a.Before c) (h' : ¬a.Before b) : b.Before c := by
  rw [before_iff] at *
  omega

theorem not_before_self (a : Stamp) : ¬a.Before a := by
  rw [before_iff]
  omega

theorem Before.not_before {a b : Stamp} (h : a.Before b) : ¬b.Before a :=
  fun h' => a.not_before_self (h.trans h')

theorem eq_of_not_before {a b : Stamp} (h : ¬a.Before b) (h' : ¬b.Before a) : a = b := by
  rw [before_iff] at *
  have hseqnum : a.seqnum = b.seqnum := UInt64.toNat_inj.mp (by omega)
  have htimestamp : a.timestamp = b.timestamp := Int64.toInt_inj.mp (by omega)
  cases a
  cases b
  cases hseqnum
  cases htimestamp
  rfl

end Stamp

namespace Filter

/-- A stamp that does not come after the stored one is refused with the stored number, or with the stored
time when the numbers are equal. -/
theorem judge_some (t s : Stamp) :
    judge (some t) s = if t.Before s then .accepted
      else if s.seqnum < t.seqnum then .staleSeq t.seqnum
      else .staleTimestamp t.timestamp := by
  simp only [judge, Stamp.before_iff, UInt64.lt_iff_toNat_lt, Int64.le_iff_toInt_le, ← UInt64.toNat_inj]
  split_ifs <;> first | rfl | omega

theorem judge_eq_accepted_iff (stored : Option Stamp) (s : Stamp) :
    judge stored s = .accepted ↔ ∀ t, stored = some t → t.Before s := by
  cases stored with
  | none => simp [judge]
  | some t =>
      rw [judge_some]
      split_ifs with hbefore <;> simp [hbefore]

end Filter

end EdgeFleet
