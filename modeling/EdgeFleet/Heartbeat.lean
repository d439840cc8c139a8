import EdgeFleet.Node
import EdgeFleet.Workload

/-! # Heartbeats and their acknowledgements -/

namespace EdgeFleet

/-- The report that an agent sends again and again. The pair of sequence number and timestamp
orders the reports of one agent; the identifier is fresh for each. -/
structure Heartbeat where
  name : String
  labels : KeyMap String
  /-- Milliseconds since the start of 1970. -/
  timestamp : Int64
  identifier : String
  seqnum : UInt64
  state : AgentState
  status : Option NodeStatus
  pods : List WorkloadSummary
  deriving DecidableEq

namespace Heartbeat

/-- A report that says nothing but the name. -/
def ofName (name : String) : Heartbeat := ⟨name, ∅, 0, "", 0, .registering, none, []⟩

def members (h : Heartbeat) : List (String × Json) :=
  ("name", .text h.name) ::
  (Json.omitIf h.labels.isEmpty "labels" (Json.ofMap Json.text h.labels) ++
  [("timestamp", .int h.timestamp.toInt), ("identifier", .text h.identifier),
    ("seqnum", .nat h.seqnum.toNat), ("state", h.state.toJson)] ++
  Json.whenSome "status" NodeStatus.toJson h.status ++
  Json.omitIf h.pods.isEmpty "pods" (Json.ofList WorkloadSummary.toJson h.pods))

def toJson (h : Heartbeat) : Json := .record h.members

/-- The fields of a heartbeat in their order. -/
def fieldNames : List String :=
  ["name", "labels", "timestamp", "identifier", "seqnum", "state", "status", "pods"]

/-- The heartbeat with the given fields, the name being the only one that must be there. -/
def ofFields? (strictness : Json.Strictness) : List (Option Json) → Option Heartbeat
  | [name, labels, timestamp, identifier, seqnum, state, status, pods] => do
    pure {
      name := ← Json.required Json.asString? name
      labels := ← Json.defaulted ∅ (Json.asMap? Json.asString?) labels
      timestamp := ← Json.defaulted 0 (fun j => j.asInt64?.map Int64.ofInt) timestamp
      identifier := ← Json.defaulted "" Json.asString? identifier
      seqnum := ← Json.defaulted 0 asUInt64? seqnum
      state := ← Json.defaulted .registering (AgentState.ofJson? strictness) state
      status := ← Json.defaulted none (Json.asOption? (NodeStatus.ofJson? strictness)) status
      pods := ← Json.defaulted [] (Json.asList? (WorkloadSummary.ofJson? strictness)) pods }
  | _ => none

def ofJson? (j : Json) : Option Heartbeat :=
  (Json.fields? fieldNames j).bind (ofFields? .direct)

def encode (h : Heartbeat) : Bytes := h.toJson.render

def decode? (payload : Bytes) : Option Heartbeat := (Json.parse? payload).bind ofJson?

end Heartbeat

/-- The controller's answer to a registering agent. The agent's name says where to send it and is
not part of the message. -/
structure Ack where
  identifier : String
  accepted : Bool
  agent : String
  deriving DecidableEq

namespace Ack

def toJson (a : Ack) : Json :=
  .record [("identifier", .text a.identifier), ("registerd", .bool a.accepted)]

def ofJson? (j : Json) : Option Ack := do
  match ← Json.fields? ["identifier", "registerd"] j with
  | [identifier, accepted] =>
    pure {
      identifier := ← Json.required Json.asString? identifier
      accepted := ← Json.defaulted false Json.asBool? accepted
      agent := "" }
  | _ => none

def encode (a : Ack) : Bytes := a.toJson.render

def decode? (payload : Bytes) : Option Ack := (Json.parse? payload).bind ofJson?

end Ack

end EdgeFleet
