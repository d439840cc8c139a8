import EdgeFleet.Fleet.Registry

/-! # What the agents are to run

The definitions of the fleet, and for each agent those that select it. The difference between what
an agent is to run and what it reports is a batch of commands: a sync for each workload that is
missing or outdated, a delete for each that is not wanted.
-/

namespace EdgeFleet

namespace WorkloadDefinition

def syncCommand (d : WorkloadDefinition) : WorkloadCommand :=
  .sync d.spec.hash d.workloadName d.ns d.spec

def deleteCommand (now : Timestamp) (d : WorkloadDefinition) : WorkloadCommand :=
  .delete d.spec.hash d.workloadName d.ns now

end WorkloadDefinition

/-- The labels that an agent gave last, and the definitions that select it, by key. -/
structure DesiredAgent where
  labels : KeyMap String
  workloads : KeyMap WorkloadDefinition
  deriving DecidableEq

/-- A command with the agent it is for. -/
abbrev Outbound := String × WorkloadCommand

/-- A definition with the number of agents that are to run it. -/
structure Target where
  key : String
  definition : WorkloadDefinition
  desired : Nat
  deriving DecidableEq

structure Desired where
  definitions : KeyMap WorkloadDefinition
  agents : KeyMap DesiredAgent
  deriving DecidableEq, Inhabited

namespace Desired

def empty : Desired := ⟨∅, ∅⟩

def knows (d : Desired) (agent : String) : Bool := d.agents.contains agent

/-- The definitions that select an agent with the given labels. -/
def selected (d : Desired) (labels : KeyMap String) : KeyMap WorkloadDefinition :=
  d.definitions.filter fun _ w => w.spec.selects labels

/-! ## Agents -/

/-- A definition selects an agent that has no workload under its key yet. -/
def isAdded (a : DesiredAgent) (labels : KeyMap String) (e : String × WorkloadDefinition) : Bool :=
  e.2.spec.selects labels ∧ ¬a.workloads.contains e.1

/-- The workloads of an agent after its labels have changed. What it has already stays as it is. -/
def relabelled (d : Desired) (a : DesiredAgent) (labels : KeyMap String) :
    KeyMap WorkloadDefinition :=
  d.definitions.toList.foldl (fun ws e =>
    if isAdded a labels e then ws.insert e.1 e.2
    else if e.2.spec.selects labels then ws
    else ws.erase e.1) a.workloads

/-- Takes note of the labels of an agent. A new agent is sent all that selects it; a known one
only what new labels add, and nothing while they stay the same. -/
def enroll (d : Desired) (agent : String) (labels : KeyMap String) :
    List WorkloadCommand × Desired :=
  match d.agents.get? agent with
  | none =>
    let workloads := d.selected labels
    (workloads.values.map (·.syncCommand),
      { d with agents := d.agents.insert agent ⟨labels, workloads⟩ })
  | some a =>
    if a.labels = labels then ([], d)
    else
      ((d.definitions.toList.filter (isAdded a labels)).map (·.2.syncCommand),
        { d with agents := d.agents.insert agent ⟨labels, d.relabelled a labels⟩ })

/-! ## The difference between desired and reported -/

/-- What is desired is not reported in the desired version. -/
def isOutdated (reported : KeyMap WorkloadSummary) (e : String × WorkloadDefinition) : Bool :=
  (reported.get? e.1).all fun p => p.hash ≠ e.2.spec.hash

/-- The commands that bring an agent from what it reports to what it is to run. -/
def diff (d : Desired) (agent : String) (pods : List WorkloadSummary) (now : Timestamp) :
    List WorkloadCommand :=
  match d.agents.get? agent with
  | none => []
  | some a =>
    let reported := KeyMap.ofList (pods.map fun p => (p.key, p))
    (a.workloads.toList.filter (isOutdated reported)).map (·.2.syncCommand) ++
      (pods.filter fun p => ¬a.workloads.contains p.key).map fun p =>
        .delete p.hash p.name p.ns now

/-! ## Definitions -/

/-- What a definition changes for one agent: the command, if any, and the agent's new workloads. -/
def defineFor (key : String) (w : WorkloadDefinition) (now : Timestamp) (a : DesiredAgent) :
    Option WorkloadCommand × DesiredAgent :=
  if w.spec.selects a.labels then
    (some w.syncCommand, { a with workloads := a.workloads.insert key w })
  else
    ((a.workloads.get? key).map (·.deleteCommand now),
      { a with workloads := a.workloads.erase key })

/-- Adds or replaces a definition. Nothing happens when the one under its key has the same hash. -/
def define (d : Desired) (w : WorkloadDefinition) (now : Timestamp) : List Outbound × Desired :=
  if (d.definitions.get? w.key).any fun old => old.spec.hash = w.spec.hash then ([], d)
  else
    let changes := d.agents.map fun _ a => defineFor w.key w now a
    (changes.toList.filterMap fun e => e.2.1.map (e.1, ·),
      ⟨d.definitions.insert w.key w, changes.map fun _ c => c.2⟩)

/-- The key of the definition with the given namespace and name. -/
def keyOf? (d : Desired) (ns name : String) : Option String :=
  (d.definitions.values.find? fun w => w.ns = ns ∧ w.name = name).map (·.key)

/-- Drops a definition: every agent that holds it is told to delete it. -/
def retract (d : Desired) (ns name : String) (now : Timestamp) : Option (List Outbound × Desired) :=
  (d.keyOf? ns name).map fun key =>
    (d.agents.toList.filterMap fun e =>
        (e.2.workloads.get? key).map fun w => (e.1, w.deleteCommand now),
      ⟨d.definitions.erase key,
        d.agents.map fun _ a => { a with workloads := a.workloads.erase key }⟩)

/-- The given definitions one after the other, no agent being known. -/
def ofDefinitions (ws : List WorkloadDefinition) (now : Timestamp) : Desired :=
  ws.foldl (fun d w => (d.define w now).2) empty

/-! ## Views -/

/-- All that an agent is to run, as commands. -/
def commands (d : Desired) (agent : String) : List WorkloadCommand :=
  match d.agents.get? agent with
  | none => []
  | some a => a.workloads.values.map (·.syncCommand)

def workloads? (d : Desired) (agent : String) : Option (KeyMap WorkloadDefinition) :=
  (d.agents.get? agent).map (·.workloads)

/-- Each definition with the number of agents that are to run it, in key order. -/
def targets (d : Desired) : List Target :=
  d.definitions.toList.map fun e =>
    ⟨e.1, e.2, d.agents.values.countP fun a => a.workloads.contains e.1⟩

end Desired

end EdgeFleet
