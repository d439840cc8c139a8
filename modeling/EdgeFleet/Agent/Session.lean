import EdgeFleet.Agent.Instance
import EdgeFleet.Text.Decimal

/-! # The session of an agent

An agent reports as registering until one of its reports is acknowledged, and then reports at regular
times. Each attempt carries a fresh identifier and waits for the acknowledgement of that identifier;
after an attempt that failed the agent rests. The session ends when it is stopped.
-/

namespace EdgeFleet

/-! ## Spans of time as text -/

/-- The text of so many milliseconds: whole seconds and their fraction without trailing zeros, milliseconds below
a second, and nothing as nanoseconds. -/
def Span.render (millis : Nat) : String :=
  if millis = 0 then "0ns"
  else if millis < 1000 then Decimal.render millis ++ "ms"
  else
    let fraction := ((Decimal.padded 3 (millis % 1000)).reverse.dropWhile (· = '0')).reverse
    Decimal.render (millis / 1000) ++
      String.ofList (if fraction = [] then [] else '.' :: fraction) ++ "s"

/-- Why an attempt to register failed. -/
inductive RegistrationError where
  | timeout (identifier : String) (waited : Nat)
  | rejected (identifier : String)
  | transport (reason : String)
  deriving DecidableEq

namespace RegistrationError

def kind : RegistrationError → String
  | timeout _ _ => "Timeout"
  | rejected _ => "Rejected"
  | transport _ => "Transport"

def message : RegistrationError → String
  | timeout identifier waited => "no ack for " ++ identifier ++ " within " ++ Span.render waited
  | rejected identifier => "kernel refused registration " ++ identifier
  | transport reason => "cannot publish heartbeat: broker unreachable: " ++ reason

end RegistrationError

/-- What an agent is doing. -/
inductive Stage where
  /-- It is about to make its first attempt. -/
  | starting
  | waiting (identifier : String) (deadline : Nat)
  | resting (error : RegistrationError) (again : Nat)
  /-- It is registered and reports next at the given time. -/
  | registered (ack : Ack) (next : Nat)
  | stopped

/-- Times in milliseconds. -/
structure Session where
  agent : Agent
  /-- How long an attempt waits for its acknowledgement. -/
  ackWait : Nat
  backoff : Nat
  /-- The time between two reports of a registered agent. -/
  interval : Nat
  stage : Stage

namespace Session

def start (agent : Agent) (ackWait backoff interval : Nat) : Session :=
  ⟨agent, ackWait, backoff, interval, .starting⟩

def now (s : Session) : Nat := s.agent.acks.now

/-- When the agent acts again by itself. -/
def wake? (s : Session) : Option Nat :=
  match s.stage with
  | .starting => some s.now
  | .waiting _ deadline => some deadline
  | .resting _ time | .registered _ time => some time
  | .stopped => none

/-- The state that the agent's next report gives, when one is due. -/
def due? (s : Session) : Option AgentState :=
  match s.stage with
  | .starting => some .registering
  | .resting _ time => if time ≤ s.now then some .registering else none
  | .registered _ time => if time ≤ s.now then some .registered else none
  | .waiting _ _ | .stopped => none

/-- The outcome of an attempt, given what its wait has brought. -/
def judge (s : Session) (identifier : String) : Option Ack → Except RegistrationError Ack
  | some ack => if ack.accepted then .ok ack else .error (.rejected ack.identifier)
  | none => .error (.timeout identifier s.ackWait)

/-- Goes on after an attempt. -/
def conclude (s : Session) (r : Except RegistrationError Ack) : Session :=
  match r with
  | .ok ack => { s with stage := .registered ack (s.now + s.interval) }
  | .error e => { s with stage := .resting e (s.now + s.backoff) }

/-- Goes on after a wait that is over, if one is. -/
def resume (s : Session) : Option (Ended Ack) → Session
  | none => s
  | some ended => s.conclude (s.judge ended.id ended.value)

/-- Waits for the acknowledgement of an attempt that has been published. -/
def await (s : Session) (identifier : String) : Session :=
  let (ended, acks) := s.agent.acks.wait identifier identifier s.ackWait
  let s := { s with agent := { s.agent with acks } }
  match ended with
  | none => { s with stage := .waiting identifier (s.now + s.ackWait) }
  | some _ => s.resume ended

/-- A report with the given identifier went out, or did not for a reason. -/
def reported (s : Session) (identifier : String) (refusal : Option String) : Session :=
  match s.stage, refusal with
  | .registered ack time, _ => { s with stage := .registered ack (time + s.interval) }
  | _, some reason => s.conclude (.error (.transport reason))
  | _, none => s.await identifier

/-- An acknowledgement comes. -/
def acknowledge (s : Session) (ack : Ack) : Session :=
  let (ended, agent) := s.agent.acknowledge ack
  { s with agent }.resume ended

/-- A message comes. -/
def receive (s : Session) (topic : String) (payload : Bytes) : Session :=
  let (ended, agent) := s.agent.receive topic payload
  { s with agent }.resume ended

/-- Time passes. -/
def pass (s : Session) (duration : Nat) : Session :=
  let (ended, acks) := s.agent.acks.advance duration
  { s with agent := { s.agent with acks } }.resume ended.head?

/-- The session is over, and a wait with it. -/
def stop (s : Session) : Session :=
  match s.stage with
  | .waiting identifier _ =>
    { s with agent := { s.agent with acks := s.agent.acks.cancel identifier }, stage := .stopped }
  | _ => { s with stage := .stopped }

end Session

end EdgeFleet
