/-! # Points in time

A timestamp is a calendar date with a time of day and the distance of its clock from universal
time. Two timestamps with different offsets may name the same instant; `instant` is what they are
compared by.
-/

namespace EdgeFleet

/-! ## The calendar -/

namespace Calendar

def isLeap (year : Nat) : Bool :=
  year % 4 = 0 ∧ (year % 100 ≠ 0 ∨ year % 400 = 0)

def daysIn (year month : Nat) : Nat :=
  if month = 2 then (if isLeap year then 29 else 28)
  else if month = 4 ∨ month = 6 ∨ month = 9 ∨ month = 11 then 30
  else 31

/-- The days of the months before `month`. -/
def daysBeforeMonth (year month : Nat) : Nat :=
  (List.range (month - 1)).foldl (fun days m => days + daysIn year (m + 1)) 0

/-- The days of the years before `year`, counted from year 0. -/
def daysBeforeYear (year : Nat) : Nat :=
  365 * year + (year + 3) / 4 - (year + 99) / 100 + (year + 399) / 400

/-- The number of a day, counted from 1 January of year 0. -/
def dayNumber (year month day : Nat) : Nat :=
  daysBeforeYear year + daysBeforeMonth year month + (day - 1)

end Calendar

/-! ## Timestamps -/

/-- The fields are those of the local clock, which is `offset` minutes ahead of universal time. -/
structure Timestamp where
  year : Nat
  month : Nat
  day : Nat
  hour : Nat
  minute : Nat
  second : Nat
  nano : Nat
  offset : Int
  inCalendar : year ≤ 9999 ∧ 1 ≤ month ∧ month ≤ 12 ∧ 1 ≤ day ∧ day ≤ Calendar.daysIn year month
  onClock : hour ≤ 23 ∧ minute ≤ 59 ∧ second ≤ 59 ∧ nano < 1000000000 ∧ offset.natAbs < 1440
  deriving DecidableEq

namespace Timestamp

/-- The timestamp with the given fields, when the calendar and the clock have them. -/
def of? (year month day hour minute second nano : Nat) (offset : Int) : Option Timestamp :=
  if hd : year ≤ 9999 ∧ 1 ≤ month ∧ month ≤ 12 ∧ 1 ≤ day ∧ day ≤ Calendar.daysIn year month then
    if hc : hour ≤ 23 ∧ minute ≤ 59 ∧ second ≤ 59 ∧ nano < 1000000000 ∧ offset.natAbs < 1440 then
      some ⟨year, month, day, hour, minute, second, nano, offset, hd, hc⟩
    else none
  else none

/-- The start of the first day of 1970. -/
def epoch : Timestamp :=
  ⟨1970, 1, 1, 0, 0, 0, 0, 0, by decide, by decide⟩

instance : Inhabited Timestamp := ⟨epoch⟩

/-- Nanoseconds of universal time since the start of year 0. -/
def instant (t : Timestamp) : Int :=
  let minutes : Int :=
    (Calendar.dayNumber t.year t.month t.day * 1440 + t.hour * 60 + t.minute : Nat) - t.offset
  (minutes * 60 + t.second) * 1000000000 + t.nano

/-- Nanoseconds from `earlier` to `later`, negative when they come in the other order. -/
def since (later earlier : Timestamp) : Int := later.instant - earlier.instant

/-- Whether the universal clock shows the last second of a month: a leap second may follow only
there. -/
def endsMonth (t : Timestamp) : Bool :=
  let minutes : Int := (t.hour * 60 + t.minute : Nat) - t.offset
  t.second = 59 ∧
    (minutes = 1439 ∧ t.day = Calendar.daysIn t.year t.month ∨
      minutes = -1 ∧ t.day = 1)

theorem of?_self (t : Timestamp) :
    of? t.year t.month t.day t.hour t.minute t.second t.nano t.offset = some t := by
  simp only [of?, t.inCalendar, t.onClock, dite_true, and_self]

end Timestamp

end EdgeFleet
