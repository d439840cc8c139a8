import EdgeFleet.Proofs.Snapshot.Cycle

/-! # Histories of a snapshot store

A history is the lives of one controller after the other on one store. A life begins by reading the
store, runs cycles call by call, and may end between any two calls. The record of the cycles is for the
proofs alone: no step depends on it.
-/

namespace EdgeFleet

/-- A cycle that was begun: what it stores, and the names of the chunks it has written so far. -/
structure CycleLog where
  generation : Nat
  maxChunkBytes : Nat
  agents : AgentMap
  written : List String

/-- The chunks that the cycle is to write. -/
def CycleLog.chunks (ns : String) (codec : Codec) (log : CycleLog) : List Chunk :=
  snapshotChunks ns codec log.generation log.maxChunkBytes log.agents

/-- Where a controller is. -/
inductive LifeStage (σ : Type) where
  | down (store : σ)
  | idle (engine : Engine) (store : σ)
  | deleting (engine : Engine) (deletes : Batch σ String)
  /-- The names of old that could not be deleted are kept. -/
  | creating (engine : Engine) (kept : List String) (creates : Batch σ Chunk)

namespace LifeStage

variable {σ : Type}

def store : LifeStage σ → σ
  | down store | idle _ store => store
  | deleting _ deletes => deletes.store
  | creating _ _ creates => creates.store

def withStore (store : σ) : LifeStage σ → LifeStage σ
  | down _ => down store
  | idle e _ => idle e store
  | deleting e deletes => deleting e { deletes with store }
  | creating e kept creates => creating e kept { creates with store }

theorem store_withStore (store : σ) (s : LifeStage σ) : (s.withStore store).store = store := by
  cases s <;> rfl

end LifeStage

/-- A controller and the cycles of all its lives so far, the latest first. -/
structure History (σ : Type) where
  stage : LifeStage σ
  cycles : List CycleLog

namespace History

variable {σ : Type} [ChunkStore σ] [LawfulStore σ]

def store (h : History σ) : σ := h.stage.store

/-- The cycle that was the last to write a chunk of the name. -/
def writer? (h : History σ) (name : String) : Option Nat :=
  h.cycles.findIdx? fun log => log.written.contains name

/-- One step in the history of a namespace. -/
inductive Step (ns : String) (codec : Codec) : History σ → History σ → Prop
  /-- A life begins by reading the store. -/
  | start {store : σ} {cycles : List CycleLog} {settings : SnapshotSettings} {r : Restored}
      (hns : settings.ns = ns) (hcodec : settings.codec = codec) (h : restore store ns codec = .ok r) :
      Step ns codec ⟨.down store, cycles⟩ ⟨.idle (.resume settings r) store, cycles⟩
  /-- A cycle begins, which is to store some agents. -/
  | begin {e : Engine} {store : σ} {cycles : List CycleLog} (agents : AgentMap) :
      Step ns codec ⟨.idle e store, cycles⟩
        ⟨.deleting e (.start e.settings.effort store e.previous),
          ⟨e.generation, e.settings.maxChunkBytes, agents, []⟩ :: cycles⟩
  | delete {e : Engine} {b b' : Batch σ String} {cycles : List CycleLog}
      (h : Batch.Step e.settings.effort (deleteCall ns) b b') :
      Step ns codec ⟨.deleting e b, cycles⟩ ⟨.deleting e b', cycles⟩
  /-- After the deletions come the creations. -/
  | turn {e : Engine} {b : Batch σ String} {log : CycleLog} {cycles : List CycleLog}
      (h : b.running = []) :
      Step ns codec ⟨.deleting e b, log :: cycles⟩
        ⟨.creating e b.failed (.start e.settings.effort b.store (log.chunks ns codec)), log :: cycles⟩
  | create {e : Engine} {kept : List String} {b b' : Batch σ Chunk} {log : CycleLog}
      {cycles : List CycleLog} (h : Batch.Step e.settings.effort createCall b b') :
      Step ns codec ⟨.creating e kept b, log :: cycles⟩
        ⟨.creating e kept b', { log with written := b'.succeeded.map (·.name) } :: cycles⟩
  | finish {e : Engine} {kept : List String} {b : Batch σ Chunk} {cycles : List CycleLog}
      (h : b.running = []) :
      Step ns codec ⟨.creating e kept b, cycles⟩
        ⟨.idle { e with generation := e.generation + 1, previous := kept ++ b.succeeded.map (·.name) }
          b.store, cycles⟩
  /-- A life ends, wherever it is. -/
  | crash (h : History σ) : Step ns codec h ⟨.down h.store, h.cycles⟩
  /-- The store fails or recovers, and chunks may get lost. -/
  | disturb {h : History σ} {store : σ} (hvalid : LawfulStore.Valid ns store)
      (hlost : ∀ c, LawfulStore.Holds ns store c → LawfulStore.Holds ns h.store c) :
      Step ns codec h ⟨h.stage.withStore store, h.cycles⟩

/-- Any number of steps. -/
abbrev Steps (ns : String) (codec : Codec) : History σ → History σ → Prop :=
  Relation.ReflTransGen (Step ns codec)

/-! ## A whole cycle -/

variable {ns : String} {codec : Codec}

theorem steps_delete {e : Engine} {b b' : Batch σ String} (cycles : List CycleLog)
    (h : Batch.Steps e.settings.effort (deleteCall ns) b b') :
    Steps ns codec ⟨.deleting e b, cycles⟩ ⟨.deleting e b', cycles⟩ := by
  induction h with
  | refl => exact .refl
  | tail _ hstep ih => exact ih.tail (.delete hstep)

theorem steps_create {e : Engine} {kept : List String} {b b' : Batch σ Chunk} (log : CycleLog)
    (cycles : List CycleLog) (hlog : log.written = b.succeeded.map (·.name))
    (h : Batch.Steps e.settings.effort createCall b b') :
    Steps ns codec ⟨.creating e kept b, log :: cycles⟩
      ⟨.creating e kept b', { log with written := b'.succeeded.map (·.name) } :: cycles⟩ := by
  induction h with
  | refl => rw [← hlog]
  | tail _ hstep ih => exact ih.tail (.create hstep)

/-- Every cycle of the engine is a way through the steps. -/
theorem steps_cycles {e : Engine} (hns : e.settings.ns = ns) (hcodec : e.settings.codec = codec)
    {fleet : Fleet} {store : σ} {dispatcher : Dispatcher} {now : Timestamp} {c : Cycle σ}
    (h : e.Cycles fleet store dispatcher now c) (cycles : List CycleLog) :
    ∃ log : CycleLog, log.generation = e.generation ∧ log.agents = c.fleet.registry.agents ∧
      Steps ns codec ⟨.idle e store, cycles⟩ ⟨.idle c.engine c.store, log :: cycles⟩ := by
  subst hns hcodec
  cases h with
  | @of_steps deletes creates hdeletes hdeleted hcreates hcreated =>
      let log : CycleLog :=
        ⟨e.generation, e.settings.maxChunkBytes, e.agentsToStore fleet now, []⟩
      have hbegin : Steps e.settings.ns e.settings.codec ⟨.idle e store, cycles⟩
          ⟨.deleting e deletes, log :: cycles⟩ :=
        .head (.begin (e.agentsToStore fleet now)) (steps_delete _ hdeletes)
      have hturn : Steps e.settings.ns e.settings.codec ⟨.deleting e deletes, log :: cycles⟩
          ⟨.creating e deletes.failed creates,
            { log with written := creates.succeeded.map (·.name) } :: cycles⟩ :=
        .head (.turn hdeleted) (steps_create log cycles rfl hcreates)
      exact ⟨_, rfl, rfl, (hbegin.trans hturn).tail (.finish hcreated)⟩

end History

end EdgeFleet
