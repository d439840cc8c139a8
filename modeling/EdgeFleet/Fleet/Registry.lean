import EdgeFleet.Heartbeat
import EdgeFleet.Time.Clock

/-! # The registry of agents

The registry keeps the last accepted report of each agent and when it came. A report makes an
agent registering when it is new, was offline or says so itself; a periodic sweep registers the
agents that wait for it, with one acknowledgement each, and sets those offline that have been
silent too long. What a sweep hands out comes with the text of all entries, which a point in time without
a text does not allow; what the sweep has done to the registry stays.
-/

namespace EdgeFleet

/-! ## Entries -/

/-- The last accepted report of an agent, with the state the controller gave it. -/
structure AgentEntry (τ : Type := Timestamp) where
  record : Heartbeat
  lastSeen : τ
  deriving DecidableEq

namespace AgentEntry

/-- The fields of the report and the time it came, side by side. -/
def toJson (e : AgentEntry) : Json :=
  .record (e.record.members ++ [("last_seen", .text e.lastSeen.render)])

/-- The same when the time may have no text. -/
def toJson? {τ : Type} [Clock τ] (e : AgentEntry τ) : Option Json :=
  (Clock.render? e.lastSeen).map fun time => .record (e.record.members ++ [("last_seen", .text time)])

/-- Reads an entry whose members have been put aside before the report is read from them: unknown
members too have to be readable, and not nested too deeply: `enclosing` objects are open around the entry. -/
def ofJson? (enclosing : Nat) : Json → Option AgentEntry
  | .obj members => do
    guard (members.all fun m => m.1.isSome)
    let aside := members.filter fun m => m.1 != some "last_seen"
    guard (Json.keepableMembers aside)
    guard (enclosing + 1 + Json.depthMembers aside ≤ Json.maxDepth)
    let lastSeen ← Json.lookupOnce? members "last_seen"
    let fields ← Json.fields? Heartbeat.fieldNames (.obj aside)
    pure {
      record := ← Heartbeat.ofFields? .buffered fields
      lastSeen := ← Json.required WorkloadCommand.asTimestamp? lastSeen }
  | _ => none

end AgentEntry

/-- The entries of all agents. -/
abbrev AgentMap (τ : Type := Timestamp) := KeyMap (AgentEntry τ)

namespace AgentMap

def toJson (m : AgentMap) : Json := Json.ofMap AgentEntry.toJson m

def ofJson? (j : Json) : Option AgentMap := Json.asMap? (AgentEntry.ofJson? 1) j

def encode (m : AgentMap) : Bytes := (toJson m).render

/-- The text of all entries, if each of them has one. -/
def encode? {τ : Type} [Clock τ] (m : AgentMap τ) : Option Bytes :=
  (Json.ofMap? AgentEntry.toJson? m).map Json.render

def decode? (payload : Bytes) : Option AgentMap := (Json.parse? payload).bind ofJson?

end AgentMap

/-! ## Rows of the node listing -/

/-- What is shown of an agent: its state at the time of the last sweep. -/
structure NodeRow (τ : Type := Timestamp) where
  name : String
  state : AgentState
  lastObserved : τ
  deriving DecidableEq

namespace NodeRow

def ofEntry {τ : Type} (e : AgentEntry τ) (now : τ) : NodeRow τ := ⟨e.record.name, e.record.state, now⟩

def toJson (r : NodeRow) : Json :=
  .record [("name", .text r.name), ("state", r.state.toJson),
    ("lastObserved", .text r.lastObserved.render)]

def ofJson? (j : Json) : Option NodeRow := do
  match ← Json.fields? ["name", "state", "lastObserved"] j with
  | [name, state, lastObserved] =>
    pure {
      name := ← Json.required Json.asString? name
      state := ← Json.required (AgentState.ofJson? .direct) state
      lastObserved := ← Json.required WorkloadCommand.asTimestamp? lastObserved }
  | _ => none

def encode (r : NodeRow) : Bytes := r.toJson.render

def decode? (payload : Bytes) : Option NodeRow := (Json.parse? payload).bind ofJson?

end NodeRow

/-- The rows of the node listing. A sweep replaces them all. -/
abbrev NodeTable (τ : Type := Timestamp) := KeyMap (NodeRow τ)

/-- The rows ordered by the names they show; rows of one name stay in key order. -/
def NodeTable.rows (t : NodeTable) : List NodeRow :=
  (KeyMap.values t).mergeSort fun a b => a.name ≤ b.name

/-! ## The registry -/

/-- What the arrival of a report means for its agent. -/
inductive Arrival where
  | new
  /-- The agent was offline, or it announces that it starts again. -/
  | rejoined
  | known
  deriving DecidableEq

/-- How many agents are in which state after a sweep, and for how many minutes they have been
silent, thirty standing for all that is longer. -/
structure SweepStats where
  registering : Nat
  registered : Nat
  offline : Nat
  silence : List (Nat × Nat)
  deriving DecidableEq, Inhabited

def SweepStats.total (s : SweepStats) : Nat := s.registering + s.registered + s.offline

structure Registry (τ : Type := Timestamp) where
  agents : AgentMap τ
  deriving DecidableEq, Inhabited

/-- What a sweep makes of the registry, and what it collects. -/
structure Sweep (τ : Type := Timestamp) where
  registry : Registry τ
  acks : List Ack
  wentOffline : List String
  rows : NodeTable τ
  stats : SweepStats

namespace Registry

variable {τ : Type}

def empty : Registry τ := ⟨∅⟩

/-- What the arrival of `h` means, given the entry of its agent. -/
def arrival (previous : Option (AgentEntry τ)) (h : Heartbeat) : Arrival :=
  match previous with
  | none => .new
  | some e =>
    if e.record.state = .offline ∨ h.state = .registering then .rejoined else .known

/-- The state in which a report is filed: once an agent is known, the registry's word counts. -/
def stateAfter (previous : Option (AgentEntry τ)) (h : Heartbeat) : AgentState :=
  match arrival previous h, previous with
  | .known, some e => e.record.state
  | _, _ => .registering

/-- Files a report that the filter let pass. -/
def receive (r : Registry τ) (h : Heartbeat) (now : τ) : Arrival × Registry τ :=
  let previous := r.agents.get? h.name
  (arrival previous h,
    ⟨r.agents.insert h.name ⟨{ h with state := stateAfter previous h }, now⟩⟩)

/-- The acknowledgement due to an agent that waits for it. -/
def dueAck? (e : AgentEntry τ) : Option Ack :=
  if e.record.state = .registering then some ⟨e.record.identifier, true, e.record.name⟩ else none

def get? (r : Registry τ) (agent : String) : Option (AgentEntry τ) := r.agents.get? agent

def stateOf? (r : Registry τ) (agent : String) : Option AgentState :=
  (r.get? agent).map (·.record.state)

/-- How often each number below 31 occurs, those that occur. -/
def histogram (ns : List Nat) : List (Nat × Nat) :=
  (List.range 31).filterMap fun n => if ns.count n = 0 then none else some (n, ns.count n)

def countIn (state : AgentState) (es : List (AgentEntry τ)) : Nat :=
  es.countP fun e => e.record.state = state

variable [Clock τ]

/-- How long an agent has been silent, in nanoseconds. -/
def silence (now : τ) (e : AgentEntry τ) : Int := Clock.since now e.lastSeen

/-- A registered agent goes offline once it has been silent for `limit` nanoseconds. -/
def isOverdue (limit : Nat) (now : τ) (e : AgentEntry τ) : Bool :=
  e.record.state = .registered ∧ limit ≤ silence now e

/-- The state of an agent after a sweep. -/
def sweptState (limit : Nat) (now : τ) (e : AgentEntry τ) : AgentState :=
  match e.record.state with
  | .registering => .registered
  | .registered => if isOverdue limit now e then .offline else .registered
  | .offline => .offline

def sweepEntry (limit : Nat) (now : τ) (e : AgentEntry τ) : AgentEntry τ :=
  { e with record := { e.record with state := sweptState limit now e } }

/-- The whole minutes of a silence, between 0 and 30. -/
def silenceMinutes (now : τ) (e : AgentEntry τ) : Nat :=
  min 30 ((silence now e).toNat / 60000000000)

def statsOf (now : τ) (es : List (AgentEntry τ)) : SweepStats :=
  ⟨countIn .registering es, countIn .registered es, countIn .offline es,
    histogram (es.map (silenceMinutes now))⟩

/-- Brings every agent to its state at `now`, with a limit of silence in nanoseconds. Rows,
acknowledgements and lists go by the names in the reports. -/
def sweepAfter (r : Registry τ) (limit : Nat) (now : τ) : Sweep τ :=
  let before := r.agents.values
  let agents := r.agents.map fun _ e => sweepEntry limit now e
  let after := agents.values
  { registry := ⟨agents⟩
    acks := before.filterMap dueAck?
    wentOffline := (before.filter (isOverdue limit now)).map (·.record.name)
    rows := KeyMap.ofList (after.map fun e => (e.record.name, NodeRow.ofEntry e now))
    stats := statsOf now after }

/-- A sweep with a timeout in seconds. -/
def sweep (r : Registry τ) (timeout : Nat) (now : τ) : Sweep τ :=
  r.sweepAfter (timeout * 1000000000) now

/-- A sweep as it is called. It hands out what it has collected together with the text of all entries, or
nothing when there is no such text. -/
def handOut (r : Registry τ) (limit : Nat) (now : τ) : Option (Sweep τ × Bytes) × Registry τ :=
  let s := r.sweepAfter limit now
  (s.registry.agents.encode?.map (s, ·), s.registry)

end Registry

end EdgeFleet
