import EdgeFleet.Agent.Session

/-! # Rehearsals

The session of an agent with a broker that follows a script: for each report of the agent it says
whether it gets through and how it is answered, at once or after a while.
-/

namespace EdgeFleet.Testbed

/-- What becomes of a report. -/
inductive Reply where
  | silence
  | refusedByBroker
  /-- An acknowledgement of the report, positive or not. -/
  | answer (accepted : Bool)
  /-- An acknowledgement of another report. -/
  | stray
  deriving DecidableEq

structure Cue where
  reply : Reply
  /-- Milliseconds until the answer comes; none when it is there at once. -/
  after : Option Nat

/-- What comes to the agent from outside. -/
inductive Delivery where
  | ack (a : Ack)
  | message (topic : String) (payload : Bytes)

structure Report where
  time : Nat
  heartbeat : Heartbeat

structure Rehearsal where
  session : Session
  /-- The last cue is for all later reports, too. -/
  script : List Cue
  /-- The identifier of each attempt, counted from zero. -/
  identify : Nat → String
  /-- When the session is stopped. -/
  stop : Option Nat
  /-- Whether the session is over once an attempt is. -/
  once : Bool
  /-- Whether the session is over once the agent is registered. -/
  untilRegistered : Bool
  deliveries : List (Nat × Delivery)
  /-- The reports so far, the latest first. -/
  sent : List Report

namespace Rehearsal

def cue (r : Rehearsal) : Cue :=
  ((r.script[r.sent.length]?).or r.script.getLast?).getD ⟨.silence, none⟩

/-- The acknowledgement that a reply is. -/
def ackOf? (reply : Reply) (n : Nat) (h : Heartbeat) : Option Ack :=
  match reply with
  | .answer accepted => some ⟨h.identifier, accepted, h.name⟩
  | .stray => some ⟨"not-" ++ Decimal.render n, true, h.name⟩
  | .silence | .refusedByBroker => none

/-- The agent sends a report. -/
def report (r : Rehearsal) (state : AgentState) : Rehearsal :=
  let n := r.sent.length
  let h := r.session.agent.heartbeat state (r.identify n) 0
  let cue := r.cue
  let time := r.session.now
  let r := { r with sent := ⟨time, h⟩ :: r.sent }
  if cue.reply = .refusedByBroker then
    { r with session := r.session.reported h.identifier (some "injected") }
  else match ackOf? cue.reply n h, cue.after with
    | some ack, none => { r with session := (r.session.acknowledge ack).reported h.identifier none }
    | some ack, some after =>
      { r with
        deliveries := r.deliveries ++ [(time + after, .ack ack)]
        session := r.session.reported h.identifier none }
    | none, _ => { r with session := r.session.reported h.identifier none }

/-- The first delivery and the others. -/
def firstDelivery? (r : Rehearsal) : Option ((Nat × Delivery) × List (Nat × Delivery)) :=
  match r.deliveries.mergeSort fun a b => a.1 ≤ b.1 with
  | [] => none
  | d :: ds => some (d, ds)

def deliver (s : Session) : Delivery → Session
  | .ack a => s.acknowledge a
  | .message topic payload => s.receive topic payload

def isOver (r : Rehearsal) : Bool :=
  match r.session.stage with
  | .stopped => true
  | .registered _ _ => r.untilRegistered
  | .resting _ _ => r.once
  | .starting | .waiting _ _ => false

/-- Lets time pass up to a moment. -/
def passTo (r : Rehearsal) (time : Nat) : Rehearsal :=
  { r with session := r.session.pass (time - r.session.now) }

/-- Stops the session at the end. -/
def finish (r : Rehearsal) : Rehearsal :=
  match r.stop with
  | none => r
  | some time =>
    let r := r.passTo time
    { r with session := r.session.stop }

/-- What happens next: a delivery, a report, the end of a wait, or the stop. -/
def step (r : Rehearsal) : Rehearsal :=
  match r.session.due? with
  | some state => r.report state
  | none =>
    let wake := r.session.wake?
    let isFirst (time : Nat) : Bool := wake.all (time < ·) ∧ r.stop.all (time < ·)
    match r.firstDelivery? with
    | some ((time, d), rest) =>
      if isFirst time then
        let r := r.passTo time
        { r with deliveries := rest, session := deliver r.session d }
      else match wake with
        | some time => if r.stop.all (time < ·) then r.passTo time else r.finish
        | none => r.finish
    | none => match wake with
      | some time => if r.stop.all (time < ·) then r.passTo time else r.finish
      | none => r.finish

/-- Plays until the session is over. -/
def play : (fuel : Nat) → Rehearsal → Rehearsal
  | 0, r => r
  | fuel + 1, r => if r.isOver then r else play fuel r.step

end Rehearsal

end EdgeFleet.Testbed
