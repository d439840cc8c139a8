import EdgeFleet.Heartbeat

/-! # The order of heartbeats

A transport may repeat, delay and reorder reports. The filter lets a report of an agent pass only
if its stamp is later than that of the last one it let pass.
-/

namespace EdgeFleet

/-- What orders the reports of one agent: the sequence number first, then the time. -/
structure Stamp where
  seqnum : UInt64
  timestamp : Int64
  deriving DecidableEq

namespace Stamp

/-- The stamp `b` comes after `a`. -/
def Before (a b : Stamp) : Prop :=
  a.seqnum < b.seqnum ∨ a.seqnum = b.seqnum ∧ a.timestamp < b.timestamp

instance (a b : Stamp) : Decidable (a.Before b) := inferInstanceAs (Decidable (_ ∨ _))

def ofHeartbeat (h : Heartbeat) : Stamp := ⟨h.seqnum, h.timestamp⟩

end Stamp

/-- What the filter says of a report. -/
inductive Decision where
  | accepted
  /-- The sequence number is below the stored one. -/
  | staleSeq (stored : UInt64)
  /-- The sequence number is the stored one, and the time is no later. -/
  | staleTimestamp (stored : Int64)
  deriving DecidableEq

/-- The stamp of the last report of each agent that passed. -/
structure Filter where
  stamps : KeyMap Stamp
  deriving DecidableEq, Inhabited

namespace Filter

/-- Nothing has passed yet. -/
def empty : Filter := ⟨∅⟩

/-- Compares a stamp with the stored one. -/
def judge (stored : Option Stamp) (s : Stamp) : Decision :=
  match stored with
  | none => .accepted
  | some t =>
    if s.seqnum < t.seqnum then .staleSeq t.seqnum
    else if s.seqnum = t.seqnum ∧ s.timestamp ≤ t.timestamp then .staleTimestamp t.timestamp
    else .accepted

/-- Files the stamp without any comparison. -/
def seed (f : Filter) (agent : String) (s : Stamp) : Filter := ⟨f.stamps.insert agent s⟩

/-- Judges a stamp and files it when it passes. -/
def decide (f : Filter) (agent : String) (s : Stamp) : Decision × Filter :=
  match judge (f.stamps.get? agent) s with
  | .accepted => (.accepted, f.seed agent s)
  | d => (d, f)

def get? (f : Filter) (agent : String) : Option Stamp := f.stamps.get? agent

end Filter

end EdgeFleet
