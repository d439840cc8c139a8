import EdgeFleet.Snapshot.Engine

/-! # The controller

The fleet with its store, its queue of messages and what is known of its health.
-/

namespace EdgeFleet

/-- The connection to the broker. -/
inductive Connection where
  | connecting | connected | disconnected | reconnecting
  deriving DecidableEq

def Connection.name : Connection → String
  | connecting => "connecting"
  | connected => "connected"
  | disconnected => "disconnected"
  | reconnecting => "reconnecting"

structure Health where
  connection : Connection
  reconnects : Nat
  lastSnapshot : Option CycleReport
  deriving DecidableEq

namespace Health

def start : Health := ⟨.connecting, 0, none⟩

def connected (h : Health) : Health := { h with connection := .connected }

def disconnected (h : Health) : Health := { h with connection := .disconnected }

/-- The connection was lost and is tried again. -/
def reconnecting (h : Health) : Health :=
  { h with connection := .reconnecting, reconnects := h.reconnects + 1 }

end Health

structure Controller (σ : Type) where
  fleet : Fleet
  store : σ
  engine : Engine
  dispatcher : Dispatcher
  health : Health

namespace Controller

variable {σ : Type}

def start (fleet : Fleet) (store : σ) (settings : SnapshotSettings) (capacity : Nat) :
    Controller σ :=
  ⟨fleet, store, .start settings, .ofCapacity capacity, .start⟩

/-- A message on the topic of heartbeats. The commands that follow are queued for the agent. -/
def handle (c : Controller σ) (payload : Bytes) (now : Timestamp) : Controller σ :=
  match c.fleet.ingest payload now with
  | (some (agent, .accepted _ commands), fleet) =>
    { c with fleet, dispatcher := (c.dispatcher.offerAll (commands.map (.ofCommand agent))).2 }
  | (_, fleet) => { c with fleet }

variable [ChunkStore σ]

def cycle (c : Controller σ) (now : Timestamp) : CycleReport × Controller σ :=
  let r := c.engine.cycle c.fleet c.store c.dispatcher now
  (r.report,
    ⟨r.fleet, r.store, r.engine, r.dispatcher, { c.health with lastSnapshot := some r.report }⟩)

/-- Starts again from the store, which may have been written with another codec. The queue and what
is known of the health stay; when the store cannot be read, nothing changes. -/
def restart (c : Controller σ) (desired : Desired) (codec : Codec) :
    Except StoreError Restored × Controller σ :=
  let settings := { c.engine.settings with codec }
  match restore c.store settings.ns codec with
  | .error e => (.error e, c)
  | .ok r =>
    (.ok r, { c with fleet := .restore r.agents desired, engine := .resume settings r })

/-- Runs cycles at the loop's pace until the time `stop`. Between two cycles the workers bring out
what waits; a cycle under way is finished. Yields what was published. -/
def loopFor (accepts : Message → Bool) (stop : Nat) (now : Timestamp) :
    (fuel : Nat) → Pace → Controller σ → List Message × Controller σ
  | 0, _, c => ([], c)
  | fuel + 1, p, c =>
    if stop ≤ p.next then ([], c)
    else
      let (report, c) := c.cycle now
      let (published, dispatcher) := c.dispatcher.settle accepts
      let (later, c) := loopFor accepts stop now fuel (p.advance report.elapsed)
        { c with dispatcher }
      (published ++ later, c)

/-- Runs the loop with a positive period. Each cycle starts later than the one before it, so there are
at most as many as the time that is left. -/
def loop (accepts : Message → Bool) (period stop : Nat) (now : Timestamp) (c : Controller σ) :
    List Message × Controller σ :=
  loopFor accepts stop now stop (.start (max 1 period)) c

end Controller

end EdgeFleet
