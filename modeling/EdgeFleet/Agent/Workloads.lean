import EdgeFleet.Workload

/-! # The workloads of one agent

A sync puts a workload in place, over one with its key; a delete takes it away. Applying a command
twice is the same as applying it once.
-/

namespace EdgeFleet

structure LocalWorkload where
  hash : String
  name : String
  ns : String
  spec : Option WorkloadSpec
  deriving DecidableEq

namespace LocalWorkload

def ofCommand (c : WorkloadCommand) : LocalWorkload := ⟨c.hash, c.name, c.ns, c.spec⟩

def toJson (w : LocalWorkload) : Json :=
  .record [("hash", .text w.hash), ("name", .text w.name), ("namespace", .text w.ns),
    ("spec", .ofOption WorkloadSpec.toJson w.spec)]

/-- What is reported of a workload: it runs. -/
def summary (w : LocalWorkload) : WorkloadSummary := ⟨w.hash, w.name, w.ns, some .running⟩

end LocalWorkload

/-- What a command did. -/
inductive Applied where
  | created | updated | unchanged | removed
  /-- There was nothing to remove. -/
  | absent
  deriving DecidableEq

def Applied.name : Applied → String
  | created => "Created"
  | updated => "Updated"
  | unchanged => "Unchanged"
  | removed => "Removed"
  | absent => "Absent"

structure LocalWorkloads where
  byKey : KeyMap LocalWorkload
  deriving DecidableEq, Inhabited

namespace LocalWorkloads

def empty : LocalWorkloads := ⟨∅⟩

def get? (ws : LocalWorkloads) (key : String) : Option LocalWorkload := ws.byKey.get? key

/-- What a command does to a workload that is there or not. -/
def effect (c : WorkloadCommand) : Option LocalWorkload → Applied
  | none => if c.isDelete then .absent else .created
  | some w => if c.isDelete then .removed else if w.hash = c.hash then .unchanged else .updated

def apply (ws : LocalWorkloads) (c : WorkloadCommand) : Applied × LocalWorkloads :=
  (effect c (ws.get? c.key),
    ⟨if c.isDelete then ws.byKey.erase c.key else ws.byKey.insert c.key (.ofCommand c)⟩)

/-- What the agent reports, in key order. -/
def summaries (ws : LocalWorkloads) : List WorkloadSummary := ws.byKey.values.map (·.summary)

def size (ws : LocalWorkloads) : Nat := ws.byKey.size

end LocalWorkloads

end EdgeFleet
