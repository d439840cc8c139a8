import EdgeFleet.Files.Tree
import EdgeFleet.Snapshot.Engine
import EdgeFleet.Topic
import EdgeFleet.Yaml.Decode

/-! # The settings of the controller

Settings are read from a YAML file. What the file does not say has a default, and so has everything when
there is no file or nothing in it.
-/

namespace EdgeFleet

/-- Where the controller finds the broker. -/
structure ControllerBroker where
  host : String
  port : UInt16
  clientId : String
  /-- In seconds. -/
  keepAlive : UInt64
  deriving DecidableEq

namespace ControllerBroker

def default : ControllerBroker := ⟨"localhost", 1883, "fleet-kernel", 15⟩

/-- How the controller connects. -/
def options (b : ControllerBroker) : BrokerOptions := .fresh b.host b.port b.clientId b.keepAlive

end ControllerBroker

/-- How snapshots are kept. -/
structure SnapshotPlan where
  ns : String
  storeDir : String
  codec : Codec
  maxChunkBytes : UInt64
  concurrency : UInt64
  retries : UInt32
  /-- In milliseconds. -/
  retryDelay : UInt64
  deriving DecidableEq

def SnapshotPlan.default : SnapshotPlan := ⟨"fleet", "./data/snapshots", .none, 1000000, 16, 3, 10⟩

/-- How messages are sent. -/
structure PublishPlan where
  workers : UInt64
  capacity : UInt64
  deriving DecidableEq

def PublishPlan.default : PublishPlan := ⟨8, 10000⟩

structure ControllerSettings where
  broker : ControllerBroker
  /-- In seconds. -/
  heartbeatTimeout : UInt64
  /-- In seconds. -/
  snapshotInterval : UInt64
  snapshot : SnapshotPlan
  publish : PublishPlan
  /-- Where the controller listens for requests. -/
  listen : String
  workloads : List WorkloadDefinition
  deriving DecidableEq

/-- What settings may not say. -/
inductive SettingsFault where
  | noChunkSize
  | noInterval
  | noPublishing
  | noNamespace
  deriving DecidableEq

def SettingsFault.message : SettingsFault → String
  | noChunkSize => "invalid value for snapshot.max_chunk_bytes: must be > 0"
  | noInterval => "invalid value for snapshot_interval_secs: must be > 0"
  | noPublishing => "invalid value for publish: workers and queue_capacity must be > 0"
  | noNamespace => "invalid value for snapshot.namespace: empty"

/-- Why settings cannot be used. -/
inductive SettingsError where
  | io (e : FileError)
  | malformed
  | invalid (fault : SettingsFault)
  deriving DecidableEq

namespace SettingsError

def kind : SettingsError → String
  | io _ => "Io"
  | malformed => "Parse"
  | invalid _ => "Invalid"

def message? : SettingsError → Option String
  | io e => some e.name
  | malformed => none
  | invalid fault => some fault.message

end SettingsError

namespace ControllerSettings

def default : ControllerSettings :=
  ⟨.default, 300, 60, .default, .default, "0.0.0.0:8080", []⟩

/-- What the engine of snapshots needs to know. -/
def snapshotSettings (s : ControllerSettings) : SnapshotSettings :=
  { ns := s.snapshot.ns
    codec := s.snapshot.codec
    maxChunkBytes := s.snapshot.maxChunkBytes.toNat
    effort := ⟨s.snapshot.concurrency.toNat, s.snapshot.retries.toNat, s.snapshot.retryDelay.toNat⟩
    heartbeatTimeout := s.heartbeatTimeout.toNat }

/-- Whether an agent may have to wait for its acknowledgement until it is taken for offline. -/
def isSlow (s : ControllerSettings) : Bool := s.snapshotInterval > s.heartbeatTimeout

/-- The first fault of the settings. -/
def fault? (s : ControllerSettings) : Option SettingsFault :=
  if s.snapshot.maxChunkBytes = 0 then some .noChunkSize
  else if s.snapshotInterval = 0 then some .noInterval
  else if s.publish.workers = 0 ∨ s.publish.capacity = 0 then some .noPublishing
  else if s.snapshot.ns = "" then some .noNamespace
  else none

/-- The settings with the namespace of the surroundings, if that is not empty. -/
def withNamespace (s : ControllerSettings) : Option String → ControllerSettings
  | none => s
  | some ns => if ns = "" then s else { s with snapshot := { s.snapshot with ns } }

/-! ## Reading -/

open Yaml (Decoder Document asText? asNatBelow? asList? asMap? required defaulted)

def asUInt64? : Decoder UInt64 := fun d y => (asNatBelow? UInt64.size d y).map Nat.toUInt64
def asUInt32? : Decoder UInt32 := fun d y => (asNatBelow? UInt32.size d y).map Nat.toUInt32
def asUInt16? : Decoder UInt16 := fun d y => (asNatBelow? UInt16.size d y).map Nat.toUInt16

def specOf? : Decoder WorkloadSpec := fun d y => do
  match ← Yaml.fields? ["image", "command", "env", "nodeSelector"] d y with
  | [image, command, env, nodeSelector] =>
    pure {
      image := ← required asText? d image
      command := ← defaulted [] (asList? asText?) d command
      env := ← defaulted ∅ (asMap? asText?) d env
      nodeSelector := ← defaulted ∅ (asMap? asText?) d nodeSelector }
  | _ => none

def definitionOf? : Decoder WorkloadDefinition := fun d y => do
  match ← Yaml.fields? ["name", "namespace", "spec"] d y with
  | [name, ns, spec] =>
    pure {
      name := ← required asText? d name
      ns := ← required asText? d ns
      spec := ← required specOf? d spec }
  | _ => none

def brokerOf? : Decoder ControllerBroker := fun d y => do
  let o := ControllerBroker.default
  match ← Yaml.fields? ["host", "port", "client_id", "keep_alive_secs"] d y with
  | [host, port, clientId, keepAlive] =>
    pure {
      host := ← defaulted o.host asText? d host
      port := ← defaulted o.port asUInt16? d port
      clientId := ← defaulted o.clientId asText? d clientId
      keepAlive := ← defaulted o.keepAlive asUInt64? d keepAlive }
  | _ => none

def codecOf? : Decoder Codec := fun d y => (Yaml.variantName? d y).bind Codec.ofName?

def snapshotOf? : Decoder SnapshotPlan := fun d y => do
  let o := SnapshotPlan.default
  match ← Yaml.fields? ["namespace", "store_dir", "codec", "max_chunk_bytes", "store_concurrency",
      "store_retries", "store_retry_delay_ms"] d y with
  | [ns, storeDir, codec, maxChunkBytes, concurrency, retries, retryDelay] =>
    pure {
      ns := ← defaulted o.ns asText? d ns
      storeDir := ← defaulted o.storeDir asText? d storeDir
      codec := ← defaulted o.codec codecOf? d codec
      maxChunkBytes := ← defaulted o.maxChunkBytes asUInt64? d maxChunkBytes
      concurrency := ← defaulted o.concurrency asUInt64? d concurrency
      retries := ← defaulted o.retries asUInt32? d retries
      retryDelay := ← defaulted o.retryDelay asUInt64? d retryDelay }
  | _ => none

def publishOf? : Decoder PublishPlan := fun d y => do
  let o := PublishPlan.default
  match ← Yaml.fields? ["workers", "queue_capacity"] d y with
  | [workers, capacity] =>
    pure {
      workers := ← defaulted o.workers asUInt64? d workers
      capacity := ← defaulted o.capacity asUInt64? d capacity }
  | _ => none

def listenOf? : Decoder String := fun d y => do
  match ← Yaml.fields? ["listen"] d y with
  | [listen] => defaulted default.listen asText? d listen
  | _ => none

def ofDocument? (d : Document) : Option ControllerSettings := do
  match ← Yaml.fields? ["mqtt", "heartbeat_timeout_secs", "snapshot_interval_secs", "snapshot", "publish",
      "http", "workloads"] d d.root with
  | [broker, heartbeatTimeout, snapshotInterval, snapshot, publish, listen, workloads] =>
    pure {
      broker := ← defaulted .default brokerOf? d broker
      heartbeatTimeout := ← defaulted default.heartbeatTimeout asUInt64? d heartbeatTimeout
      snapshotInterval := ← defaulted default.snapshotInterval asUInt64? d snapshotInterval
      snapshot := ← defaulted .default snapshotOf? d snapshot
      publish := ← defaulted .default publishOf? d publish
      listen := ← defaulted default.listen listenOf? d listen
      workloads := ← defaulted [] (asList? definitionOf?) d workloads }
  | _ => none

/-- The characters that Unicode calls white space. -/
def isWhiteSpace (c : Char) : Bool :=
  c ∈ ['\t', '\n', '\x0b', '\x0c', '\r', ' ', '\u0085', '\u00A0', '\u1680', '\u2028', '\u2029', '\u202F',
    '\u205F', '\u3000'] ∨ ('\u2000' ≤ c ∧ c ≤ '\u200A')

/-- The settings that a text spells. White space spells the defaults. -/
def ofText? (text : String) : Option ControllerSettings :=
  if text.toList.all isWhiteSpace then some default else (Yaml.parse? text).bind ofDocument?

/-- The settings at a place, before they are checked. -/
def read (place : Location) (files : FileTree) : Except SettingsError ControllerSettings :=
  match files.exist place with
  | .ok true => match files.read place with
    | .error e => .error (.io e)
    | .ok bs => match text? bs with
      | none => .error (.io .invalidData)
      | some text => match ofText? text with
        | none => .error .malformed
        | some s => .ok s
  | _ => .ok default

/-- Loads the settings from a place. The namespace of the surroundings comes before that of the file. -/
def load (place : Location) (ns : Option String) (files : FileTree) :
    Except SettingsError ControllerSettings := do
  let s := (← read place files).withNamespace ns
  match s.fault? with
  | some fault => .error (.invalid fault)
  | none => .ok s

/-! ## Writing -/

def toJson (s : ControllerSettings) : Json :=
  .record [
    ("mqtt", .record [("host", .text s.broker.host), ("port", .nat s.broker.port.toNat),
      ("client_id", .text s.broker.clientId), ("keep_alive_secs", .nat s.broker.keepAlive.toNat)]),
    ("heartbeat_timeout_secs", .nat s.heartbeatTimeout.toNat),
    ("snapshot_interval_secs", .nat s.snapshotInterval.toNat),
    ("snapshot", .record [("namespace", .text s.snapshot.ns), ("store_dir", .text s.snapshot.storeDir),
      ("codec", .text s.snapshot.codec.name), ("max_chunk_bytes", .nat s.snapshot.maxChunkBytes.toNat),
      ("store_concurrency", .nat s.snapshot.concurrency.toNat),
      ("store_retries", .nat s.snapshot.retries.toNat),
      ("store_retry_delay_ms", .nat s.snapshot.retryDelay.toNat)]),
    ("publish", .record [("workers", .nat s.publish.workers.toNat),
      ("queue_capacity", .nat s.publish.capacity.toNat)]),
    ("http", .record [("listen", .text s.listen)]),
    ("workloads", .ofList WorkloadDefinition.toJson s.workloads)]

end ControllerSettings

end EdgeFleet
