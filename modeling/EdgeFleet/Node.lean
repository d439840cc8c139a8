import EdgeFleet.Json.Decode

/-! # What an agent reports about its node -/

namespace EdgeFleet

/-! ## The state of an agent -/

/-- The life of an agent as the controller sees it. -/
inductive AgentState where
  | registering | registered | offline
  deriving DecidableEq, Inhabited

namespace AgentState

def name : AgentState → String
  | registering => "Registering"
  | registered => "Registered"
  | offline => "Offline"

def toJson (s : AgentState) : Json := .text s.name

/-- Some agents leave out a letter of `Registered`. -/
def ofName? (s : String) : Option AgentState :=
  if s = "Registering" then some registering
  else if s = "Registered" ∨ s = "Registerd" then some registered
  else if s = "Offline" then some offline
  else none

def ofJson? (strictness : Json.Strictness) (j : Json) : Option AgentState :=
  (Json.variantName? strictness j).bind ofName?

end AgentState

/-! ## Addresses -/

inductive AddressKind where
  | internalIp | hostName
  deriving DecidableEq

namespace AddressKind

def name : AddressKind → String
  | internalIp => "InternalIP"
  | hostName => "HostName"

def ofName? (s : String) : Option AddressKind :=
  if s = "InternalIP" then some internalIp
  else if s = "HostName" then some hostName
  else none

end AddressKind

structure Address where
  address : String
  kind : AddressKind
  deriving DecidableEq

namespace Address

def toJson (a : Address) : Json :=
  .record [("address", .text a.address), ("type", .text a.kind.name)]

def ofJson? (strictness : Json.Strictness) (j : Json) : Option Address := do
  match ← Json.fields? ["address", "type"] j with
  | [address, kind] =>
    pure {
      address := ← Json.required Json.asString? address
      kind := ← Json.required (fun j => (Json.variantName? strictness j).bind AddressKind.ofName?) kind }
  | _ => none

end Address

/-! ## Resources -/

def asUInt64? (j : Json) : Option UInt64 := (j.asNatBelow? UInt64.size).map Nat.toUInt64

def asUInt32? (j : Json) : Option UInt32 := (j.asNatBelow? UInt32.size).map Nat.toUInt32

/-- Processor time in thousandths of a core, memory in KiB and places for workloads. -/
structure Resources where
  cpu : UInt64
  memory : UInt64
  pods : UInt32
  deriving DecidableEq, Inhabited

namespace Resources

def toJson (r : Resources) : Json :=
  .record [("cpu", .nat r.cpu.toNat), ("memory", .nat r.memory.toNat), ("pods", .nat r.pods.toNat)]

def ofJson? (j : Json) : Option Resources := do
  match ← Json.fields? ["cpu", "memory", "pods"] j with
  | [cpu, memory, pods] =>
    pure {
      cpu := ← Json.defaulted 0 asUInt64? cpu
      memory := ← Json.defaulted 0 asUInt64? memory
      pods := ← Json.defaulted 0 asUInt32? pods }
  | _ => none

end Resources

/-! ## Node status -/

structure NodeInfo where
  architecture : String
  agentVersion : String
  kernelVersion : String
  deriving DecidableEq

namespace NodeInfo

def toJson (i : NodeInfo) : Json :=
  .record [("architecture", .text i.architecture), ("agentVersion", .text i.agentVersion),
    ("kernelVersion", .text i.kernelVersion)]

def ofJson? (j : Json) : Option NodeInfo := do
  match ← Json.fields? ["architecture", "agentVersion", "kernelVersion"] j with
  | [architecture, agentVersion, kernelVersion] =>
    pure {
      architecture := ← Json.required Json.asString? architecture
      agentVersion := ← Json.required Json.asString? agentVersion
      kernelVersion := ← Json.required Json.asString? kernelVersion }
  | _ => none

end NodeInfo

structure NodeStatus where
  addresses : List Address
  /-- What the scheduler may hand out. -/
  allocatable : Option Resources
  capacity : Option Resources
  nodeInfo : Option NodeInfo
  deriving DecidableEq

namespace NodeStatus

def toJson (s : NodeStatus) : Json :=
  .record <|
    Json.omitIf s.addresses.isEmpty "addresses" (Json.ofList Address.toJson s.addresses) ++
    Json.whenSome "allocatable" Resources.toJson s.allocatable ++
    Json.whenSome "capacity" Resources.toJson s.capacity ++
    Json.whenSome "nodeInfo" NodeInfo.toJson s.nodeInfo

def ofJson? (strictness : Json.Strictness) (j : Json) : Option NodeStatus := do
  match ← Json.fields? ["addresses", "allocatable", "capacity", "nodeInfo"] j with
  | [addresses, allocatable, capacity, nodeInfo] =>
    pure {
      addresses := ← Json.defaulted [] (Json.asList? (Address.ofJson? strictness)) addresses
      allocatable := ← Json.defaulted none (Json.asOption? Resources.ofJson?) allocatable
      capacity := ← Json.defaulted none (Json.asOption? Resources.ofJson?) capacity
      nodeInfo := ← Json.defaulted none (Json.asOption? NodeInfo.ofJson?) nodeInfo }
  | _ => none

end NodeStatus

end EdgeFleet
