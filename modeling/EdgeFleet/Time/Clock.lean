import EdgeFleet.Time.Rfc3339

/-! # Points in time that may have no text

What is asked of a point in time: how far it is from others, and its text as far as there is one. Timestamps can
always be written. A moment can be written only between the years 0 and 9999, and on a clock that differs from
universal time by whole minutes and by less than a day.
-/

namespace EdgeFleet

class Clock (τ : Type) where
  /-- Nanoseconds from `earlier` to `later`, negative when they come in the other order. -/
  since (later earlier : τ) : Int
  render? (time : τ) : Option String

instance : Clock Timestamp where
  since := Timestamp.since
  render? t := some t.render

theorem Timestamp.clock_since (later earlier : Timestamp) : Clock.since later earlier = later.since earlier := rfl

/-! ## Moments -/

/-- The fields are those of the local clock, which is `offset` seconds ahead of universal time. Years are counted
from 10000 years before year 0, which leaves the calendar of every year as it is. -/
structure Moment where
  year : Nat
  month : Nat
  day : Nat
  hour : Nat
  minute : Nat
  second : Nat
  nano : Nat
  offset : Int
  inCalendar : 1 ≤ year ∧ year ≤ 19999 ∧ 1 ≤ month ∧ month ≤ 12 ∧ 1 ≤ day ∧ day ≤ Calendar.daysIn year month
  onClock : hour ≤ 23 ∧ minute ≤ 59 ∧ second ≤ 59 ∧ nano < 1000000000 ∧ offset.natAbs < 93600
  deriving DecidableEq

namespace Moment

/-- Nanoseconds of universal time since the start of the first year. -/
def instant (m : Moment) : Int :=
  let seconds : Int :=
    (((Calendar.dayNumber m.year m.month m.day * 24 + m.hour) * 60 + m.minute) * 60 + m.second : Nat) - m.offset
  seconds * 1000000000 + m.nano

/-- The timestamp with the same fields. -/
def toTimestamp? (m : Moment) : Option Timestamp :=
  if 10000 ≤ m.year ∧ m.offset % 60 = 0 then
    Timestamp.of? (m.year - 10000) m.month m.day m.hour m.minute m.second m.nano (m.offset / 60)
  else none

instance : Clock Moment where
  since later earlier := later.instant - earlier.instant
  render? m := m.toTimestamp?.map Timestamp.render

end Moment

end EdgeFleet
