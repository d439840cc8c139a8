import EdgeFleet.Files.Tree
import EdgeFleet.Toml.Decode
import EdgeFleet.Toml.Writer
import EdgeFleet.Topic

/-! # The settings of agents

Settings are kept in a TOML file. What the file does not say has a default, and so has everything when
there is no file.
-/

namespace EdgeFleet

/-- Where the agents find the broker. -/
structure AgentBroker where
  host : String
  port : UInt16
  /-- In seconds. -/
  keepAlive : UInt64
  deriving DecidableEq

namespace AgentBroker

def default : AgentBroker := ⟨"127.0.0.1", 1883, 60⟩

/-- How the agent with a given name connects. -/
def options (b : AgentBroker) (name : String) : BrokerOptions := .fresh b.host b.port name b.keepAlive

end AgentBroker

structure AgentSettings where
  broker : AgentBroker
  /-- What the names of the agents begin with. -/
  baseName : Option String
  instances : UInt64
  /-- In seconds. -/
  heartbeatInterval : UInt64
  /-- In seconds. -/
  registrationBackoff : UInt64
  /-- In milliseconds. -/
  spawnInterval : UInt64
  persistentDir : String
  deriving DecidableEq

/-- Why settings cannot be loaded. -/
inductive LoadError where
  | read (e : FileError)
  | malformed
  deriving DecidableEq

/-- Why settings cannot be saved. -/
inductive SaveError where
  /-- A number is too great for the file. -/
  | number
  | write (e : FileError)
  deriving DecidableEq

namespace LoadError

def kind : LoadError → String
  | read _ => "Read"
  | malformed => "Parse"

end LoadError

namespace AgentSettings

def default : AgentSettings := ⟨.default, none, 1, 120, 10, 500, "./data/agent"⟩

/-- What the names of the agents begin with: as the settings say, else the name of the pod, if these are
not empty. -/
def baseNameOr (s : AgentSettings) (pod : Option String) : Option String :=
  (s.baseName.filter (· ≠ "")).or (pod.filter (· ≠ ""))

/-! ## Reading -/

def asUInt64? (t : Toml) : Option UInt64 := (t.asNatBelow? UInt64.size).map Nat.toUInt64

def asUInt16? (t : Toml) : Option UInt16 := (t.asNatBelow? UInt16.size).map Nat.toUInt16

def brokerOf? (t : Toml) : Option AgentBroker := do
  match ← t.fields? ["broker_host", "broker_port", "keep_alive_secs"] with
  | [host, port, keepAlive] =>
    pure {
      host := ← Toml.defaulted AgentBroker.default.host Toml.asText? host
      port := ← Toml.defaulted AgentBroker.default.port asUInt16? port
      keepAlive := ← Toml.defaulted AgentBroker.default.keepAlive asUInt64? keepAlive }
  | _ => none

/-- The settings beside those of the broker. -/
def agentOf? (broker : AgentBroker) (t : Toml) : Option AgentSettings := do
  match ← t.fields? ["name_prefix", "instances", "heartbeat_interval_secs",
      "registration_backoff_secs", "spawn_interval_ms", "persistent_dir"] with
  | [baseName, instances, heartbeatInterval, registrationBackoff, spawnInterval, persistentDir] =>
    pure {
      broker
      baseName := ← Toml.defaulted none (fun t => t.asText?.map some) baseName
      instances := ← Toml.defaulted default.instances asUInt64? instances
      heartbeatInterval := ← Toml.defaulted default.heartbeatInterval asUInt64? heartbeatInterval
      registrationBackoff :=
        ← Toml.defaulted default.registrationBackoff asUInt64? registrationBackoff
      spawnInterval := ← Toml.defaulted default.spawnInterval asUInt64? spawnInterval
      persistentDir := ← Toml.defaulted default.persistentDir Toml.asText? persistentDir }
  | _ => none

/-- The settings that a text spells. -/
def ofText? (text : String) : Option AgentSettings := do
  let root ← Toml.parse? text
  let broker ← Toml.defaulted .default brokerOf? (root.lookup "mqtt")
  Toml.defaulted { default with broker } (agentOf? broker) (root.lookup "agent")

/-- Loads the settings from a place. -/
def load (place : Location) (files : FileTree) : Except LoadError AgentSettings :=
  match files.exist place with
  | .ok true => match files.read place with
    | .error e => .error (.read e)
    | .ok bs => match text? bs with
      | none => .error (.read .invalidData)
      | some text => match ofText? text with
        | none => .error .malformed
        | some s => .ok s
  | _ => .ok default

/-! ## Writing -/

/-- The settings as tables. -/
def tables (s : AgentSettings) : List (String × List (String × Toml.Plain)) :=
  [("mqtt",
    [("broker_host", .text s.broker.host), ("broker_port", .nat s.broker.port.toNat),
      ("keep_alive_secs", .nat s.broker.keepAlive.toNat)]),
    ("agent",
      (s.baseName.toList.map fun name => ("name_prefix", .text name)) ++
      [("instances", .nat s.instances.toNat),
        ("heartbeat_interval_secs", .nat s.heartbeatInterval.toNat),
        ("registration_backoff_secs", .nat s.registrationBackoff.toNat),
        ("spawn_interval_ms", .nat s.spawnInterval.toNat),
        ("persistent_dir", .text s.persistentDir)])]

/-- The text of the settings, unless a number is too great for it. -/
def render? (s : AgentSettings) : Option String := Toml.render? s.tables

/-- Saves the settings at a place, with the folders on the way. Yields whether that succeeds, and the
files afterwards. -/
def save (s : AgentSettings) (place : Location) (files : FileTree) :
    Except SaveError Unit × FileTree :=
  match files.makeFolders place.dropLast with
  | .error e => (.error (.write e), files)
  | .ok files => match s.render? with
    | none => (.error .number, files)
    | some text => match files.write place (utf8 text) with
      | .error e => (.error (.write e), files)
      | .ok files => (.ok (), files)

def toJson (s : AgentSettings) : Json :=
  .record [
    ("mqtt", .record [("broker_host", .text s.broker.host), ("broker_port", .nat s.broker.port.toNat),
      ("keep_alive_secs", .nat s.broker.keepAlive.toNat)]),
    ("agent", .record [("name_prefix", .ofOption .text s.baseName), ("instances", .nat s.instances.toNat),
      ("heartbeat_interval_secs", .nat s.heartbeatInterval.toNat),
      ("registration_backoff_secs", .nat s.registrationBackoff.toNat),
      ("spawn_interval_ms", .nat s.spawnInterval.toNat), ("persistent_dir", .text s.persistentDir)])]

end AgentSettings

end EdgeFleet
