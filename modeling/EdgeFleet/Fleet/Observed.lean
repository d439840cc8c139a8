import EdgeFleet.Fleet.Registry

/-! # What the agents run

For each agent the workloads that its last accepted report lists, by key.
-/

namespace EdgeFleet

structure Observed where
  agents : KeyMap (KeyMap WorkloadSummary)
  deriving DecidableEq, Inhabited

namespace Observed

def empty : Observed := ⟨∅⟩

/-- The reported workloads by key; of two with one key the last counts. -/
def byKey (pods : List WorkloadSummary) : KeyMap WorkloadSummary :=
  KeyMap.ofList (pods.map fun p => (p.key, p))

/-- Replaces all that is known of an agent. -/
def record (o : Observed) (agent : String) (pods : List WorkloadSummary) : Observed :=
  ⟨o.agents.insert agent (byKey pods)⟩

def get? (o : Observed) (agent : String) : Option (KeyMap WorkloadSummary) := o.agents.get? agent

/-- The agents that report a workload of the given key, in order. -/
def running (o : Observed) (key : String) : List String :=
  (o.agents.toList.filter fun e => e.2.contains key).map (·.1)

/-- A workload that runs in the wanted version. -/
def isReady (hash : String) (w : WorkloadSummary) : Bool :=
  w.hash = hash ∧ w.phase = some .running

/-- How many agents run the workload in the wanted version. -/
def ready (o : Observed) (key hash : String) : Nat :=
  o.agents.toList.countP fun e => (e.2.get? key).any (isReady hash)

/-- What the entries of a registry report. -/
def ofEntries (agents : AgentMap) : Observed :=
  ⟨agents.map fun _ e => byKey e.record.pods⟩

end Observed

end EdgeFleet
