import EdgeFleet.Dispatch
import EdgeFleet.Fleet.State
import EdgeFleet.Snapshot.Replacement
import EdgeFleet.Snapshot.Restore

/-! # Snapshot cycles

A cycle sweeps the registry, shows the result in the node listing, replaces the stored snapshot, and
hands out the acknowledgements together with all that the promoted agents are to run. No failure of
the store keeps the other parts from happening.
-/

namespace EdgeFleet

structure SnapshotSettings where
  ns : String
  codec : Codec
  maxChunkBytes : Nat
  effort : Effort
  /-- Seconds of silence after which an agent is offline. -/
  heartbeatTimeout : Nat
  deriving DecidableEq

/-- What a cycle did. -/
structure CycleReport where
  generation : Nat
  stats : SweepStats
  payloadBytes : Nat
  storedBytes : Nat
  chunksWritten : Nat
  chunksFailed : Nat
  deletesFailed : Nat
  acksDispatched : Nat
  commandsDispatched : Nat
  elapsed : Nat
  deriving DecidableEq

/-- Which generation comes next, and which chunks it replaces. -/
structure Engine where
  settings : SnapshotSettings
  generation : Nat
  previous : List String
  deriving DecidableEq

/-- What a cycle leaves behind. -/
structure Cycle (σ : Type) where
  report : CycleReport
  engine : Engine
  fleet : Fleet
  store : σ
  dispatcher : Dispatcher

namespace Engine

def start (settings : SnapshotSettings) : Engine := ⟨settings, 0, []⟩

/-- Goes on after what was found in the store, and is to replace all of it. -/
def resume (settings : SnapshotSettings) (r : Restored) : Engine :=
  ⟨settings, r.nextGeneration, r.names⟩

variable {σ : Type} [ChunkStore σ]

/-- Replaces the stored snapshot by one of the given data. -/
def save (e : Engine) (store : σ) (stored : Bytes) : Replaced σ :=
  replaceChunks e.settings.effort e.settings.ns store e.previous
    (chunksOf e.settings.ns e.generation e.settings.maxChunkBytes stored)

/-- Hands out the acknowledgement of a promoted agent and then its workloads; yields how many of each
are queued. -/
def welcome (fleet : Fleet) (counts : Nat × Nat) (d : Dispatcher) (a : Ack) :
    (Nat × Nat) × Dispatcher :=
  let (acked, d) := d.offer (.ofAck a)
  let (n, d) := d.offerAll ((fleet.desired.commands a.agent).map (.ofCommand a.agent))
  ((counts.1 + acked.toNat, counts.2 + n), d)

/-- Ends a cycle whose calls to the store are over: the agents that were promoted are welcomed. -/
def conclude (e : Engine) (fleet : Fleet) (sweep : Sweep) (payload stored : Bytes) (r : Replaced σ)
    (dispatcher : Dispatcher) : Cycle σ :=
  let ((acks, commands), dispatcher) := sweep.acks.foldl
    (fun (counts, d) a => welcome fleet counts d a) ((0, 0), dispatcher)
  { report :=
      { generation := e.generation
        stats := sweep.stats
        payloadBytes := payload.length
        storedBytes := stored.length
        chunksWritten := r.written
        chunksFailed := r.lost
        deletesFailed := r.undeleted
        acksDispatched := acks
        commandsDispatched := commands
        elapsed := r.elapsed }
    engine := { e with generation := e.generation + 1, previous := r.names }
    fleet
    store := r.store
    dispatcher }

/-- Runs a cycle. -/
def cycle (e : Engine) (fleet : Fleet) (store : σ) (dispatcher : Dispatcher) (now : Timestamp) :
    Cycle σ :=
  let (sweep, fleet) := fleet.sweep e.settings.heartbeatTimeout now
  let payload := sweep.registry.agents.encode
  let stored := e.settings.codec.compress payload
  e.conclude fleet sweep payload stored (e.save store stored) dispatcher

end Engine

/-! ## Cycles at regular times -/

/-- The loop's clock, in milliseconds since the loop began. -/
structure Pace where
  period : Nat
  /-- When the next cycle is due. -/
  due : Nat
  /-- When the last cycle ended. -/
  ended : Nat
  deriving DecidableEq

namespace Pace

/-- How late a cycle may be without moving the ones after it. -/
def tolerance : Nat := 5

/-- The first cycle comes after one period. -/
def start (period : Nat) : Pace := ⟨period, period, 0⟩

/-- When the next cycle starts: when it is due and the last one is over. -/
def next (p : Pace) : Nat := max p.due p.ended

/-- After a cycle that took `duration`. After a late one the periods count from its start. -/
def advance (p : Pace) (duration : Nat) : Pace :=
  let started := p.next
  { p with
    due := (if p.due + tolerance < started then started else p.due) + p.period
    ended := started + duration }

end Pace

end EdgeFleet
