import EdgeFleet.Agent.Workloads
import EdgeFleet.Correlation
import EdgeFleet.Heartbeat
import EdgeFleet.Topic

/-! # An agent

An agent reports its state and its workloads. Of the messages it receives it takes in the
acknowledgements and the commands that are addressed to it.
-/

namespace EdgeFleet

structure Agent where
  name : String
  seqnum : UInt64
  architecture : String
  status : NodeStatus
  /-- Acknowledgements by the identifier of the report they answer. -/
  acks : Correlation Ack
  workloads : LocalWorkloads

namespace Agent

def start (name : String) (seqnum : UInt64) (architecture : String) (status : NodeStatus) : Agent :=
  ⟨name, seqnum, architecture, status, .empty, .empty⟩

def labels (a : Agent) : KeyMap String :=
  KeyMap.ofList [("HostName", a.name), ("arch", a.architecture)]

/-- The report of the agent at a time. -/
def heartbeat (a : Agent) (state : AgentState) (identifier : String) (timestamp : Int64) :
    Heartbeat :=
  { name := a.name
    labels := a.labels
    timestamp, identifier
    seqnum := a.seqnum
    state
    status := some a.status
    pods := a.workloads.summaries }

/-- Takes in an acknowledgement; yields the wait that it ends. -/
def acknowledge (a : Agent) (ack : Ack) : Option (Ended Ack) × Agent :=
  let (ended, acks) := a.acks.set ack.identifier ack
  (ended, { a with acks })

/-- A message arrives. It counts only on the agent's own topics and only if it can be read. -/
def receive (a : Agent) (topic : String) (payload : Bytes) : Option (Ended Ack) × Agent :=
  match Topic.parse? topic with
  | some (.control name) =>
    if name = a.name then
      match Ack.decode? payload with
      | some ack => a.acknowledge ack
      | none => (none, a)
    else (none, a)
  | some (.data name) =>
    if name = a.name then
      match WorkloadCommand.decode? payload with
      | some c => (none, { a with workloads := (a.workloads.apply c).2 })
      | none => (none, a)
    else (none, a)
  | none => (none, a)

end Agent

end EdgeFleet
