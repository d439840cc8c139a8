import EdgeFleet.Heartbeat
import EdgeFleet.Topic

/-! # Sending without waiting

Messages wait in a queue of limited length until a worker takes them to the broker. Nobody waits for
room: a message that finds the queue full or closed is dropped. A worker tries each message once.
-/

namespace EdgeFleet

structure Message where
  topic : String
  payload : Bytes
  deriving DecidableEq

namespace Message

def ofAck (a : Ack) : Message := ⟨Topic.control a.agent, a.encode⟩

def ofCommand (agent : String) (c : WorkloadCommand) : Message := ⟨Topic.data agent, c.encode⟩

end Message

/-- What became of the messages. -/
structure DispatchStats where
  queued : Nat
  published : Nat
  failed : Nat
  dropped : Nat
  deriving DecidableEq

structure Dispatcher where
  /-- How many messages may wait. -/
  capacity : Nat
  /-- The messages that wait, the oldest first. -/
  queue : List Message
  /-- The messages that workers have taken and not yet brought out. -/
  taken : List Message
  isClosed : Bool
  stats : DispatchStats
  deriving DecidableEq

namespace Dispatcher

/-- An empty queue. There is room for at least one message. -/
def ofCapacity (capacity : Nat) : Dispatcher := ⟨max 1 capacity, [], [], false, ⟨0, 0, 0, 0⟩⟩

/-- Counts a message that does not get into the queue. -/
def drop (d : Dispatcher) : Dispatcher :=
  { d with stats := { d.stats with dropped := d.stats.dropped + 1 } }

/-- Puts a message at the end of the queue if that is open and has room; yields whether it did. A worker can
take the message from now on, also before it is counted. -/
def send (d : Dispatcher) (m : Message) : Bool × Dispatcher :=
  if d.isClosed ∨ d.capacity ≤ d.queue.length then (false, d)
  else (true, { d with queue := d.queue ++ [m] })

/-- Counts a message that was put into the queue or not. -/
def count (d : Dispatcher) (queued : Bool) : Dispatcher :=
  if queued then { d with stats := { d.stats with queued := d.stats.queued + 1 } } else d.drop

/-- Hands over a message; yields whether it is queued. -/
def offer (d : Dispatcher) (m : Message) : Bool × Dispatcher :=
  let (queued, d) := d.send m
  (queued, d.count queued)

/-- Hands over messages one after the other; yields how many are queued. -/
def offerAll (d : Dispatcher) (ms : List Message) : Nat × Dispatcher :=
  ms.foldl (fun (n, d) m =>
    let (queued, d) := d.offer m
    (n + queued.toNat, d)) (0, d)

/-- A worker takes the oldest message. -/
def take? (d : Dispatcher) : Option (Message × Dispatcher) :=
  match d.queue with
  | [] => none
  | m :: queue => some (m, { d with queue, taken := d.taken ++ [m] })

/-- A worker has brought out a message, or failed to. -/
def finish (d : Dispatcher) (m : Message) (published : Bool) : Dispatcher :=
  { d with
    taken := d.taken.erase m
    stats :=
      if published then { d.stats with published := d.stats.published + 1 }
      else { d.stats with failed := d.stats.failed + 1 } }

/-- No message is accepted any more. -/
def close (d : Dispatcher) : Dispatcher := { d with isClosed := true }

/-- The workers bring out all that waits; `accepts` is whether the broker takes a message. Yields the
messages that were published, in order. -/
def settle (accepts : Message → Bool) (d : Dispatcher) : List Message × Dispatcher :=
  let published := d.queue.filter accepts
  (published,
    { d with
      queue := []
      stats :=
        { d.stats with
          published := d.stats.published + published.length
          failed := d.stats.failed + (d.queue.length - published.length) } })

end Dispatcher

end EdgeFleet
