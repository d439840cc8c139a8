import EdgeFleet.Node

/-! # Samples of a host

What a sample of processor and memory means in the units of a report.
-/

namespace EdgeFleet

structure HostSample where
  cores : UInt64
  /-- The share of processor time in use, in percent. -/
  cpuPercent : Float32
  totalMemory : UInt64
  availableMemory : UInt64

namespace HostSample

/-- How many workloads an agent has places for. -/
def podSlots : UInt32 := 110

def agentVersion : String := "v0.1.0"

def capacity (s : HostSample) : Resources := ⟨s.cores * 1000, s.totalMemory / 1024, podSlots⟩

/-- A percentage within its bounds. What is no number stays none. -/
def clamped (x : Float32) : Float32 := if x < 0 then 0 else if x > 100 then 100 else x

/-- The share of processor time that is free. -/
def idle (s : HostSample) : Float32 := (100 - clamped s.cpuPercent) / 100

/-- What is free. A share that is no number counts as nothing. -/
def allocatable (s : HostSample) : Resources :=
  ⟨(s.capacity.cpu.toFloat * s.idle.toFloat).toUInt64,
    min s.availableMemory s.totalMemory / 1024, podSlots⟩

/-- The status that a sample gives. -/
def status (s : HostSample) (addresses : List Address) (architecture kernelVersion : String) :
    NodeStatus :=
  ⟨addresses, some s.allocatable, some s.capacity, some ⟨architecture, agentVersion, kernelVersion⟩⟩

end HostSample

end EdgeFleet
