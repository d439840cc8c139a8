import EdgeFleet.Dispatch

/-! # A broker for tests

A broker that writes down what is published on it. It can refuse messages, take time for each, and
tell a listener about those it took. Its clock moves only while someone waits.
-/

namespace EdgeFleet.Testbed

/-- A message that is on its way: when it moves on, and whether the broker has it already. -/
structure Pending where
  time : Nat
  isSent : Bool
  message : Message

structure Broker where
  now : Nat
  /-- The messages that were taken, the oldest first. -/
  journal : List Message
  refuses : Bool
  /-- Milliseconds that a message takes. -/
  delay : Nat
  hasListener : Bool
  /-- The topics of the messages that the listener was told about. -/
  heard : List String
  pending : List Pending

namespace Broker

def start : Broker := ⟨0, [], false, 0, false, [], []⟩

/-- What is said of a refused message. -/
def refusal (topic : String) : String := "broker unreachable: mock refused publish to " ++ topic

/-- What is said of a value that cannot be written. -/
def unwritable : String := "serialization failed"

/-- A message reaches the broker; yields whether it is taken. -/
def commit (b : Broker) (m : Message) : Bool × Broker :=
  if b.refuses then (false, b)
  else
    (true,
      { b with
        journal := b.journal ++ [m]
        heard := if b.hasListener then b.heard ++ [m.topic] else b.heard })

/-- The pending message that moves on first. -/
def first? (b : Broker) : Option Pending :=
  b.pending.foldl (fun best p => match best with
    | none => some p
    | some q => if p.time < q.time then some p else some q) none

/-- Moves a pending message on. -/
def moveOn (b : Broker) (p : Pending) : Broker :=
  let b := { b with
    now := p.time
    pending := b.pending.eraseP fun q => q.time = p.time ∧ q.isSent = p.isSent ∧ q.message = p.message }
  if p.isSent ∨ b.delay = 0 then (b.commit p.message).2
  else { b with pending := b.pending ++ [⟨p.time + b.delay, true, p.message⟩] }

def advanceFor (target : Nat) : (fuel : Nat) → Broker → Broker
  | 0, b => { b with now := target }
  | fuel + 1, b =>
    match b.first? with
    | some p => if p.time ≤ target then advanceFor target fuel (b.moveOn p) else { b with now := target }
    | none => { b with now := target }

/-- Lets time pass. Each pending message moves on at most twice. -/
def advance (b : Broker) (duration : Nat) : Broker :=
  advanceFor (b.now + duration) (2 * b.pending.length) b

/-- Publishes a message and waits for it. -/
def publish (b : Broker) (m : Message) : Bool × Broker := (b.advance b.delay).commit m

/-- Publishes a message after a while, without waiting. -/
def publishLater (b : Broker) (m : Message) (after : Nat) : Broker :=
  (advance { b with pending := b.pending ++ [⟨b.now + after, false, m⟩] } 0)

def clear (b : Broker) : Broker := { b with journal := [] }

/-! ## Looking at the journal -/

def onTopic (b : Broker) (topic : String) : List Message := b.journal.filter fun m => m.topic = topic

def underTopic (b : Broker) (front : String) : List Message :=
  b.journal.filter fun m => front.toList.isPrefixOf m.topic.toList

/-- The last value on a topic, if there is a message; `none` when it cannot be read. -/
def lastJson? (b : Broker) (topic : String) : Option (Option Json) :=
  match (b.onTopic topic).getLast? with
  | none => some none
  | some m => (Json.parseKept? m.payload).map some

/-- The values on a topic; `none` when one cannot be read. -/
def jsonOn? (b : Broker) (topic : String) : Option (List Json) :=
  (b.onTopic topic).mapM fun m => Json.parseKept? m.payload

def heartbeats (b : Broker) : List Heartbeat :=
  (b.onTopic Topic.heartbeat).filterMap fun m => Heartbeat.decode? m.payload

def acksFor (b : Broker) (agent : String) : List Ack :=
  (b.onTopic (Topic.control agent)).filterMap fun m => Ack.decode? m.payload

def commandsFor (b : Broker) (agent : String) : List WorkloadCommand :=
  (b.onTopic (Topic.data agent)).filterMap fun m => WorkloadCommand.decode? m.payload

/-- How many messages each topic has. -/
def counts (b : Broker) : KeyMap Nat :=
  b.journal.foldl (fun m e => m.insert e.topic ((m.get? e.topic).getD 0 + 1)) ∅

/-! ## Waiting -/

/-- The time between two looks, in milliseconds. -/
def pollStep : Nat := 10

def waitFor (ready : Broker → Bool) (deadline : Nat) : (fuel : Nat) → Broker → Broker
  | 0, b => b
  | fuel + 1, b =>
    if ready b ∨ deadline ≤ b.now then b
    else waitFor ready deadline fuel (b.advance pollStep)

/-- Looks again and again until it is so or the time is over. -/
def wait (b : Broker) (ready : Broker → Bool) (timeout : Nat) : Broker :=
  waitFor ready (b.now + timeout) (timeout / pollStep + 2) b

end Broker

/-! ## Messages for tests -/

/-- The status of a node that is like a real one. -/
def nodeStatus : NodeStatus :=
  { addresses := [⟨"127.0.0.1", .internalIp⟩, ⟨"localhost", .hostName⟩]
    allocatable := some ⟨6000, 6000 * 1024, 8⟩
    capacity := some ⟨8000, 8000 * 1024, 10⟩
    nodeInfo := some ⟨"amd64", "v0.1.0", "6.1.0"⟩ }

/-- A registering report with that status and the name as a label. -/
def heartbeat (name identifier : String) : Heartbeat :=
  { Heartbeat.ofName name with
    labels := KeyMap.ofList [("HostName", name)], identifier, seqnum := 1, status := some nodeStatus }

def syncCommand (ns name image : String) : WorkloadCommand :=
  .sync (WorkloadSpec.ofImage image).hash name ns (.ofImage image)

end EdgeFleet.Testbed
