import EdgeFleet.Digest.Sha256
import EdgeFleet.Json.Decode
import EdgeFleet.Json.Shape
import EdgeFleet.Time.Rfc3339

/-! # Workloads: what is to run, what runs, and the commands between the two -/

namespace EdgeFleet

/-- The key of a workload on one agent. -/
def workloadKey (ns name : String) : String := ns ++ "-" ++ name

/-! ## Specifications -/

/-- Everything that is needed to run a workload, and which agents are to run it. -/
structure WorkloadSpec where
  image : String
  command : List String
  env : KeyMap String
  nodeSelector : KeyMap String
  deriving DecidableEq

namespace WorkloadSpec

/-- A specification that has nothing but an image. -/
def ofImage (image : String) : WorkloadSpec := ⟨image, [], ∅, ∅⟩

/-- Whether the labels of an agent contain every pair of the selector. -/
def selects (spec : WorkloadSpec) (labels : KeyMap String) : Bool :=
  spec.nodeSelector.toList.all fun e => labels.get? e.1 == some e.2

def toJson (s : WorkloadSpec) : Json :=
  .record <|
    ("image", .text s.image) ::
    (Json.omitIf s.command.isEmpty "command" (Json.ofList Json.text s.command) ++
    Json.omitIf s.env.isEmpty "env" (Json.ofMap Json.text s.env) ++
    Json.omitIf s.nodeSelector.isEmpty "nodeSelector" (Json.ofMap Json.text s.nodeSelector))

def ofJson? (j : Json) : Option WorkloadSpec := do
  match ← Json.fields? ["image", "command", "env", "nodeSelector"] j with
  | [image, command, env, nodeSelector] =>
    pure {
      image := ← Json.required Json.asString? image
      command := ← Json.defaulted [] (Json.asList? Json.asString?) command
      env := ← Json.defaulted ∅ (Json.asMap? Json.asString?) env
      nodeSelector := ← Json.defaulted ∅ (Json.asMap? Json.asString?) nodeSelector }
  | _ => none

/-- What `ofJson?` reads. -/
def shape : Json.Shape :=
  .record [("image", true, .text), ("command", false, .list .text), ("env", false, .map .text),
    ("nodeSelector", false, .map .text)]

def encode (s : WorkloadSpec) : Bytes := s.toJson.render

def decode? (payload : Bytes) : Option WorkloadSpec := (Json.parse? payload).bind ofJson?

/-- The SHA-256 digest of the specification's JSON form. -/
def hash (s : WorkloadSpec) : String := Sha256.hexDigest s.encode

end WorkloadSpec

/-! ## Reports -/

inductive Phase where
  | pending | running | succeeded | failed | unknown
  deriving DecidableEq

namespace Phase

def name : Phase → String
  | pending => "Pending"
  | running => "Running"
  | succeeded => "Succeeded"
  | failed => "Failed"
  | unknown => "Unknown"

def ofName? (s : String) : Option Phase :=
  [pending, running, succeeded, failed, unknown].find? fun p => p.name = s

/-- A phase is reported as the only field of a record. -/
def toJson (p : Phase) : Json := .record [("phase", .text p.name)]

def ofJson? (strictness : Json.Strictness) (j : Json) : Option Phase := do
  match ← Json.fields? ["phase"] j with
  | [phase] => Json.required (fun j => (Json.variantName? strictness j).bind ofName?) phase
  | _ => none

end Phase

/-- What an agent reports about one workload. -/
structure WorkloadSummary where
  hash : String
  name : String
  ns : String
  phase : Option Phase
  deriving DecidableEq

namespace WorkloadSummary

def key (s : WorkloadSummary) : String := workloadKey s.ns s.name

def toJson (s : WorkloadSummary) : Json :=
  .record <|
    [("hash", .text s.hash), ("name", .text s.name), ("namespace", .text s.ns)] ++
    Json.whenSome "status" Phase.toJson s.phase

def ofJson? (strictness : Json.Strictness) (j : Json) : Option WorkloadSummary := do
  match ← Json.fields? ["hash", "name", "namespace", "status"] j with
  | [hash, name, ns, phase] =>
    pure {
      hash := ← Json.required Json.asString? hash
      name := ← Json.required Json.asString? name
      ns := ← Json.required Json.asString? ns
      phase := ← Json.defaulted none (Json.asOption? (Phase.ofJson? strictness)) phase }
  | _ => none

end WorkloadSummary

/-! ## Commands -/

/-- A command to one agent. With a time of deletion the workload is to go; without one it is to
run as specified. -/
structure WorkloadCommand where
  hash : String
  name : String
  ns : String
  spec : Option WorkloadSpec
  deletedAt : Option Timestamp
  deriving DecidableEq

namespace WorkloadCommand

def sync (hash name ns : String) (spec : WorkloadSpec) : WorkloadCommand :=
  ⟨hash, name, ns, some spec, none⟩

def delete (hash name ns : String) (now : Timestamp) : WorkloadCommand :=
  ⟨hash, name, ns, none, some now⟩

def isDelete (c : WorkloadCommand) : Bool := c.deletedAt.isSome

def key (c : WorkloadCommand) : String := workloadKey c.ns c.name

def toJson (c : WorkloadCommand) : Json :=
  .record <|
    [("hash", .text c.hash), ("name", .text c.name), ("namespace", .text c.ns)] ++
    Json.whenSome "spec" WorkloadSpec.toJson c.spec ++
    Json.whenSome "deleteTimestamp" (fun t => .text t.render) c.deletedAt

def asTimestamp? (j : Json) : Option Timestamp := j.asString?.bind Timestamp.parse?

def ofJson? (j : Json) : Option WorkloadCommand := do
  match ← Json.fields? ["hash", "name", "namespace", "spec", "deleteTimestamp"] j with
  | [hash, name, ns, spec, deletedAt] =>
    pure {
      hash := ← Json.required Json.asString? hash
      name := ← Json.required Json.asString? name
      ns := ← Json.required Json.asString? ns
      spec := ← Json.defaulted none (Json.asOption? WorkloadSpec.ofJson?) spec
      deletedAt := ← Json.defaulted none (Json.asOption? asTimestamp?) deletedAt }
  | _ => none

def encode (c : WorkloadCommand) : Bytes := c.toJson.render

def decode? (payload : Bytes) : Option WorkloadCommand := (Json.parse? payload).bind ofJson?

end WorkloadCommand

/-! ## Definitions -/

/-- A workload that every selected agent of the fleet is to run. -/
structure WorkloadDefinition where
  name : String
  ns : String
  spec : WorkloadSpec
  deriving DecidableEq

namespace WorkloadDefinition

/-- The name of the workload on an agent. -/
def workloadName (d : WorkloadDefinition) : String := "fleetset-" ++ d.name

def key (d : WorkloadDefinition) : String := workloadKey d.ns d.workloadName

def toJson (d : WorkloadDefinition) : Json :=
  .record [("name", .text d.name), ("namespace", .text d.ns), ("spec", d.spec.toJson)]

def ofJson? (j : Json) : Option WorkloadDefinition := do
  match ← Json.fields? ["name", "namespace", "spec"] j with
  | [name, ns, spec] =>
    pure {
      name := ← Json.required Json.asString? name
      ns := ← Json.required Json.asString? ns
      spec := ← Json.required WorkloadSpec.ofJson? spec }
  | _ => none

/-- What `ofJson?` reads. -/
def shape : Json.Shape :=
  .record [("name", true, .text), ("namespace", true, .text), ("spec", true, WorkloadSpec.shape)]

def encode (d : WorkloadDefinition) : Bytes := d.toJson.render

def decode? (payload : Bytes) : Option WorkloadDefinition := (Json.parse? payload).bind ofJson?

end WorkloadDefinition

end EdgeFleet
