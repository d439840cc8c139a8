import EdgeFleet.Api.Request
import EdgeFleet.Controller

/-! # The controller's interface

Reading the health, the nodes and the workloads of the fleet, and changing its definitions. When a key
is set, every request that is not a plain read has to bring it, before anything else is looked at.
-/

namespace EdgeFleet.Api

/-! ## Views -/

def ingestJson (s : IngestStats) : Json :=
  .record [("received", .nat s.received), ("accepted", .nat s.accepted), ("rejected", .nat s.rejected),
    ("malformed", .nat s.malformed)]

def dispatchJson (s : DispatchStats) : Json :=
  .record [("queued", .nat s.queued), ("published", .nat s.published), ("failed", .nat s.failed),
    ("dropped", .nat s.dropped)]

def sweepJson (s : SweepStats) : Json :=
  .record [("registering", .nat s.registering), ("registered", .nat s.registered),
    ("offline", .nat s.offline),
    ("silence_minutes", .record (s.silence.map fun e => (Decimal.render e.1, .nat e.2)))]

/-- A report without the sizes and times, which are not told. -/
def reportJson (r : CycleReport) : Json :=
  .record [("generation", .nat r.generation), ("stats", sweepJson r.stats),
    ("chunks_failed", .nat r.chunksFailed), ("deletes_failed", .nat r.deletesFailed),
    ("acks_dispatched", .nat r.acksDispatched), ("commands_dispatched", .nat r.commandsDispatched)]

def rolloutJson (r : Rollout) : Json :=
  .record [("name", .text r.definition.name), ("namespace", .text r.definition.ns),
    ("spec", r.definition.spec.toJson), ("hash", .text r.definition.spec.hash),
    ("status", .record [("desired", .nat r.desired), ("scheduled", .nat r.scheduled),
      ("ready", .nat r.ready)])]

/-- A workload as one agent is to run it. -/
def assignedJson (w : WorkloadDefinition) : Json :=
  .record [("hash", .text w.spec.hash), ("name", .text w.workloadName), ("namespace", .text w.ns),
    ("spec", w.spec.toJson)]

/-- Namespaces and names one after the other. -/
def before (a b : WorkloadDefinition) : Bool :=
  a.ns < b.ns ∨ a.ns = b.ns ∧ a.workloadName ≤ b.workloadName

/-- A row of the listing with what is known of its agent. -/
def nodeJson (row : NodeRow) (entry : Option AgentEntry) (assigned : List WorkloadDefinition) : Json :=
  .record [("name", .text row.name), ("state", row.state.toJson),
    ("last_seen", .ofOption (fun e => .text e.lastSeen.render) entry),
    ("seqnum", .ofOption (fun e => .nat e.record.seqnum.toNat) entry),
    ("labels", .ofMap .text ((entry.map (·.record.labels)).getD ∅)),
    ("observed", .ofList WorkloadSummary.toJson ((entry.map (·.record.pods)).getD [])),
    ("desired", .ofList assignedJson (assigned.mergeSort before))]

/-- What a change of the definitions led to. -/
def changeJson (key : String) (queued : Nat) : Json :=
  .record [("key", .text key), ("commands_queued", .nat queued)]

/-! ## Routes -/

inductive Route where
  | health
  | nodes
  | node (name : String)
  | workloads
  | workload (ns name : String)
  deriving DecidableEq

namespace Route

/-- The route of a path. The parts that stand for names are not empty and still encoded. -/
def ofTarget? (target : String) : Option Route :=
  match segments target with
  | ["", "health"] => some health
  | ["", "nodes"] => some nodes
  | ["", "nodes", name] => if name = "" then none else some (node name)
  | ["", "workloads"] => some workloads
  | ["", "workloads", ns, name] => if ns = "" ∨ name = "" then none else some (workload ns name)
  | _ => none

def methods : Route → List Method
  | health | nodes | node _ => [.get, .head]
  | workloads => [.get, .head, .put]
  | workload _ _ => [.delete]

def allow (r : Route) : String := ",".intercalate (r.methods.map Method.name)

end Route

/-! ## Answers -/

variable {σ : Type}

def healthJson (c : Controller σ) : Json :=
  .record [("agents_tracked", .nat c.fleet.registry.agents.size),
    ("definitions_loaded", .nat c.fleet.desired.definitions.size),
    ("mqtt_status", .text c.health.connection.name), ("mqtt_reconnects", .nat c.health.reconnects),
    ("heartbeats", ingestJson c.fleet.stats), ("publish", dispatchJson c.dispatcher.stats),
    ("last_snapshot", .ofOption reportJson c.health.lastSnapshot)]

def invalidPath : Response := .text 400 "Invalid URL"

def showNode (c : Controller σ) (segment : String) : Response :=
  match segmentText? segment with
  | none => invalidPath
  | some name =>
    match c.fleet.nodes.get? name with
    | none => .bare 404
    | some row => .ok (nodeJson row (c.fleet.registry.get? name)
        (((c.fleet.desired.workloads? name).map KeyMap.values).getD []))

/-- The answer to a read. -/
def view (c : Controller σ) : Route → Response
  | .health => .ok (healthJson c)
  | .nodes => .ok (.ofList NodeRow.toJson c.fleet.nodes.rows)
  | .node segment => showNode c segment
  | .workloads => .ok (.ofList rolloutJson c.fleet.rollouts)
  | .workload _ _ => .bare 405

/-- Queues commands; yields the answer to the change that caused them. -/
def answerChange (c : Controller σ) (key : String) (commands : List Outbound) (desired : Desired) :
    Response × Controller σ :=
  let (queued, dispatcher) :=
    c.dispatcher.offerAll (commands.map fun o => .ofCommand o.1 o.2)
  (.ok (changeJson key queued), { c with dispatcher, fleet := { c.fleet with desired } })

/-- The definition in the body of a request. -/
def definitionOf (r : Request) : Except Response WorkloadDefinition :=
  if ¬(r.header? "content-type").any isJsonType then
    .error (.text 415 "Expected request with `Content-Type: application/json`")
  else match WorkloadDefinition.decode? r.body with
    | some w =>
      if w.name = "" ∨ w.ns = "" then .error (.text 400 "name and namespace are required")
      else .ok w
    | none =>
      if WorkloadDefinition.shape.fault? r.body = some .mismatched then
        .error (.text 422 "Failed to deserialize the JSON body into the target type")
      else .error (.text 400 "Failed to parse the request body as JSON")

def putWorkload (c : Controller σ) (r : Request) (now : Timestamp) : Response × Controller σ :=
  match definitionOf r with
  | .error response => (response, c)
  | .ok w =>
    let (commands, desired) := c.fleet.desired.define w now
    answerChange c w.key commands desired

def deleteWorkload (c : Controller σ) (ns name : String) (now : Timestamp) :
    Response × Controller σ :=
  match segmentText? ns, segmentText? name with
  | some ns, some name =>
    match c.fleet.desired.retract ns name now with
    | none => (.bare 404, c)
    | some (commands, desired) =>
      answerChange c (WorkloadDefinition.mk name ns (.ofImage "")).key commands desired
  | _, _ => (invalidPath, c)

/-- The answer to a request on a route. -/
def answer (c : Controller σ) (route : Route) (r : Request) (now : Timestamp) :
    Response × Controller σ :=
  match r.method, route with
  | .get, route => (view c route, c)
  | .head, route => ((view c route).withoutBody, c)
  | .put, .workloads => putWorkload c r now
  | .delete, .workload ns name => deleteWorkload c ns name now
  | _, _ => (.bare 405, c)

/-- The key that a value of the environment sets. A value that is no text sets none, like a missing one. -/
def keyOf (env : Option Bytes) : String := (env.bind text?).getD ""

/-- Plain reads need no key; without a set key nothing does. -/
def isAdmitted (env : Option Bytes) (r : Request) : Bool :=
  r.method = .get ∨ keyOf env = "" ∨
    (r.header? "x-api-key").any fun v => isReadable v ∧ v = utf8 (keyOf env)

/-- Answers a request, given what the environment holds for the key. -/
def respond (env : Option Bytes) (c : Controller σ) (r : Request) (now : Timestamp) :
    Response × Controller σ :=
  match Route.ofTarget? r.target with
  | none => (.bare (if isAdmitted env r then 404 else 401), c)
  | some route =>
    if r.method ∈ route.methods then
      if isAdmitted env r then answer c route r now else (.bare 401, c)
    else ({ Response.bare (if isAdmitted env r then 405 else 401) with allow := some route.allow }, c)

end EdgeFleet.Api
