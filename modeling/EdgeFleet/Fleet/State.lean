import EdgeFleet.Fleet.Desired
import EdgeFleet.Fleet.Filter
import EdgeFleet.Fleet.Observed

/-! # The fleet

The state of the controller. An accepted report passes through it in five steps: the filter takes
its stamp, its workloads replace those observed, the difference to what is desired becomes
commands, the registry files it, and last its labels are noted, which may add commands.
-/

namespace EdgeFleet

/-- How many reports came and what became of them. -/
structure IngestStats where
  received : Nat
  accepted : Nat
  rejected : Nat
  malformed : Nat
  deriving DecidableEq, Inhabited

structure Fleet where
  registry : Registry
  filter : Filter
  observed : Observed
  desired : Desired
  nodes : NodeTable
  stats : IngestStats
  deriving DecidableEq, Inhabited

/-- What became of a report. -/
inductive Ingest where
  | rejected (decision : Decision)
  | accepted (arrival : Arrival) (commands : List WorkloadCommand)
  deriving DecidableEq

/-- A definition and how far the fleet has come with it. -/
structure Rollout where
  definition : WorkloadDefinition
  /-- Agents that are to run it. -/
  desired : Nat
  /-- Agents that report it in any version. -/
  scheduled : Nat
  /-- Agents that run it in the current version. -/
  ready : Nat
  deriving DecidableEq

namespace Fleet

/-- No agent is known. -/
def start (desired : Desired) : Fleet :=
  ⟨.empty, .empty, .empty, desired, ∅, ⟨0, 0, 0, 0⟩⟩

def ofDefinitions (ws : List WorkloadDefinition) (now : Timestamp) : Fleet :=
  start (.ofDefinitions ws now)

/-- The fleet that the entries of a snapshot describe. Everything but the entries is derived from
them and the definitions; the rows of the listing are dated by the last report of each agent. -/
def restore (agents : AgentMap) (desired : Desired) : Fleet :=
  { registry := ⟨agents⟩
    filter := ⟨agents.map fun _ e => .ofHeartbeat e.record⟩
    observed := .ofEntries agents
    desired := agents.toList.foldl (fun d e => (d.enroll e.1 e.2.record.labels).2) desired
    nodes := agents.map fun _ e => .ofEntry e e.lastSeen
    stats := ⟨0, 0, 0, 0⟩ }

/-- Takes in a report that the filter let pass. -/
def absorb (f : Fleet) (h : Heartbeat) (now : Timestamp) : Ingest × Fleet :=
  let observed := f.observed.record h.name h.pods
  let changes := f.desired.diff h.name h.pods now
  let (arrival, registry) := f.registry.receive h now
  let (additions, desired) := f.desired.enroll h.name h.labels
  (.accepted arrival (changes ++ additions), { f with observed, registry, desired })

/-- Judges a report and takes it in if it passes. -/
def judge (f : Fleet) (h : Heartbeat) (now : Timestamp) : Ingest × Fleet :=
  match f.filter.decide h.name (.ofHeartbeat h) with
  | (.accepted, filter) =>
    { f with filter, stats := { f.stats with accepted := f.stats.accepted + 1 } }.absorb h now
  | (d, _) =>
    (.rejected d, { f with stats := { f.stats with rejected := f.stats.rejected + 1 } })

def countReceived (f : Fleet) : Fleet :=
  { f with stats := { f.stats with received := f.stats.received + 1 } }

/-- A report arrives. -/
def consume (f : Fleet) (h : Heartbeat) (now : Timestamp) : Ingest × Fleet :=
  f.countReceived.judge h now

/-- A message arrives that should be a report; `none` when it is not. -/
def ingest (f : Fleet) (payload : Bytes) (now : Timestamp) : Option (String × Ingest) × Fleet :=
  match Heartbeat.decode? payload with
  | some h =>
    let (outcome, f) := f.countReceived.judge h now
    (some (h.name, outcome), f)
  | none =>
    let f := f.countReceived
    (none, { f with stats := { f.stats with malformed := f.stats.malformed + 1 } })

/-- Sweeps the registry and shows the result in the node listing. The limit of silence is in
nanoseconds. -/
def sweepAfter (f : Fleet) (limit : Nat) (now : Timestamp) : Sweep × Fleet :=
  let s := f.registry.sweepAfter limit now
  (s, { f with registry := s.registry, nodes := s.rows })

/-- A sweep with a timeout in seconds. -/
def sweep (f : Fleet) (timeout : Nat) (now : Timestamp) : Sweep × Fleet :=
  f.sweepAfter (timeout * 1000000000) now

/-- Each definition in key order with its progress. -/
def rollouts (f : Fleet) : List Rollout :=
  f.desired.targets.map fun t =>
    { definition := t.definition
      desired := t.desired
      scheduled := (f.observed.running t.key).length
      ready := f.observed.ready t.key t.definition.spec.hash }

end Fleet

end EdgeFleet
