import EdgeFleet.KeyMap.Basic

/-! # Waiting for values by key

A store of values that are expected under keys, with waiters for keys that have no value yet. A value
goes to the waiter that has waited longest for its key and is kept only when there is none. Time is
part of the state and moves only by `advance`; a sweeper may drop old values at regular times.
-/

namespace EdgeFleet

/-- A value with the time since which it has been there. -/
structure Stored (α : Type) where
  value : α
  since : Nat

/-- Someone who waits for a key until a deadline. -/
structure Waiter where
  id : String
  key : String
  since : Nat
  deadline : Nat
  deriving DecidableEq

/-- A wait that is over, with the value if it came. -/
structure Ended (α : Type) where
  id : String
  value : Option α
  waited : Nat

/-- Sweeps every `period`, next at the time `next`, and keeps what is not older than `retention`. -/
structure Sweeper where
  period : Nat
  retention : Nat
  next : Nat
  positive : 0 < period

structure Correlation (α : Type) where
  now : Nat
  entries : KeyMap (Stored α)
  /-- Who waits, the longest wait first. -/
  waiters : List Waiter
  sweeper : Option Sweeper

namespace Correlation

variable {α : Type}

/-- Nothing is stored, nobody waits, and nothing is swept. -/
def empty : Correlation α := ⟨0, ∅, [], none⟩

/-- The same with a sweeper. A period of zero stands for one. -/
def withSweeper (period retention : Nat) : Correlation α :=
  let period := max 1 period
  ⟨0, ∅, [], some ⟨period, retention, period, by omega⟩⟩

/-- Stores a value, or hands it to the first waiter for its key. -/
def set (c : Correlation α) (key : String) (value : α) : Option (Ended α) × Correlation α :=
  match c.waiters.find? fun w => w.key = key with
  | some w =>
    (some ⟨w.id, some value, c.now - w.since⟩,
      { c with
        entries := c.entries.erase key
        waiters := c.waiters.eraseP fun w => w.key = key })
  | none => (none, { c with entries := c.entries.insert key ⟨value, c.now⟩ })

/-- The value under a key, which stays. -/
def get? (c : Correlation α) (key : String) : Option α := (c.entries.get? key).map (·.value)

/-- Takes out the value under a key. -/
def pop? (c : Correlation α) (key : String) : Option (α × Correlation α) :=
  (c.get? key).map fun v => (v, { c with entries := c.entries.erase key })

/-- Takes out the value under a key, or waits for it. Without patience the wait is over at once. -/
def wait (c : Correlation α) (id key : String) (patience : Nat) :
    Option (Ended α) × Correlation α :=
  match c.pop? key with
  | some (v, c) => (some ⟨id, some v, 0⟩, c)
  | none =>
    if patience = 0 then (some ⟨id, none, 0⟩, c)
    else (none, { c with waiters := c.waiters ++ [⟨id, key, c.now, c.now + patience⟩] })

/-- Gives up the waits with an id. -/
def cancel (c : Correlation α) (id : String) : Correlation α :=
  { c with waiters := c.waiters.filter fun w => w.id ≠ id }

/-- The entries that are not older than `retention` at a time. -/
def kept (entries : KeyMap (Stored α)) (time retention : Nat) : KeyMap (Stored α) :=
  entries.filter fun _ s => time - s.since ≤ retention

/-- Drops what is older than `retention`; yields how many entries went. -/
def sweep (c : Correlation α) (retention : Nat) : Nat × Correlation α :=
  let entries := kept c.entries c.now retention
  (c.entries.size - entries.size, { c with entries })

/-- The last time up to `time` at which the sweeper sweeps. -/
def Sweeper.lastUpTo? (s : Sweeper) (time : Nat) : Option Nat :=
  if s.next ≤ time then some (s.next + (time - s.next) / s.period * s.period) else none

/-- The sweeper's work up to `time`. With nothing stored in between, the last sweep does it all. -/
def runSweeper (time : Nat) (s : Sweeper) (entries : KeyMap (Stored α)) :
    Sweeper × KeyMap (Stored α) :=
  match Sweeper.lastUpTo? s time with
  | none => (s, entries)
  | some last => ({ s with next := last + s.period }, kept entries last s.retention)

/-- Lets time pass. Waits whose deadline comes are over without a value. -/
def advance (c : Correlation α) (duration : Nat) : List (Ended α) × Correlation α :=
  let time := c.now + duration
  let (due, waiters) := c.waiters.partition fun w => w.deadline ≤ time
  let ended := due.map fun w => ⟨w.id, none, w.deadline - w.since⟩
  match c.sweeper with
  | none => (ended, { c with now := time, waiters })
  | some s =>
    let (s, entries) := runSweeper time s c.entries
    (ended, ⟨time, entries, waiters, some s⟩)

def size (c : Correlation α) : Nat := c.entries.size

end Correlation

end EdgeFleet
