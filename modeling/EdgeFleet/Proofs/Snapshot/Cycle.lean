import EdgeFleet.Proofs.Snapshot.Calls
import EdgeFleet.Proofs.Snapshot.Restore
import EdgeFleet.Snapshot.Engine

/-! # What a cycle leaves in the store

The calls of a cycle may be over in any order. If none of them failed for good, and the engine knew all
chunks there were, the namespace holds the new snapshot and nothing else.
-/

namespace EdgeFleet.Engine

variable {σ : Type} [ChunkStore σ]

/-- The agents that a cycle stores. -/
def agentsToStore (e : Engine) (fleet : Fleet) (now : Timestamp) : AgentMap :=
  (fleet.sweep e.settings.heartbeatTimeout now).1.registry.agents

/-- The chunks that a cycle is to create. -/
def chunksToStore (e : Engine) (fleet : Fleet) (now : Timestamp) : List Chunk :=
  snapshotChunks e.settings.ns e.settings.codec e.generation e.settings.maxChunkBytes
    (e.agentsToStore fleet now)

/-- The cycles of the engine, one for each order in which the store's calls may be over. -/
inductive Cycles (e : Engine) (fleet : Fleet) (store : σ) (dispatcher : Dispatcher) (now : Timestamp) :
    Cycle σ → Prop
  | of_steps {deletes : Batch σ String} {creates : Batch σ Chunk}
      (hdeletes : Batch.Steps e.settings.effort (deleteCall e.settings.ns)
        (.start e.settings.effort store e.previous) deletes)
      (hdeleted : deletes.running = [])
      (hcreates : Batch.Steps e.settings.effort createCall
        (.start e.settings.effort deletes.store (e.chunksToStore fleet now)) creates)
      (hcreated : creates.running = []) :
      Cycles e fleet store dispatcher now
        (e.conclude (fleet.sweep e.settings.heartbeatTimeout now).2
          (fleet.sweep e.settings.heartbeatTimeout now).1 (e.agentsToStore fleet now).encode
          (e.settings.codec.compress (e.agentsToStore fleet now).encode) (.of deletes creates) dispatcher)

/-- Running the calls by their due times is one of the orders. -/
theorem cycles_cycle (e : Engine) (fleet : Fleet) (store : σ) (dispatcher : Dispatcher) (now : Timestamp) :
    e.Cycles fleet store dispatcher now (e.cycle fleet store dispatcher now) := by
  obtain ⟨hdeletes, hdeleted⟩ :=
    Batch.run_spec e.settings.effort (deleteCall e.settings.ns) store e.previous
  obtain ⟨hcreates, hcreated⟩ := Batch.run_spec e.settings.effort createCall
    (Batch.run e.settings.effort (deleteCall e.settings.ns) store e.previous).store
    (e.chunksToStore fleet now)
  exact .of_steps hdeletes hdeleted hcreates hcreated

variable [LawfulStore σ] {e : Engine} {fleet : Fleet} {store : σ} {dispatcher : Dispatcher}
  {now : Timestamp} {c : Cycle σ}

theorem Cycles.listable (h : e.Cycles fleet store dispatcher now c)
    (hvalid : LawfulStore.Valid e.settings.ns store)
    (hlist : ∃ cs, ChunkStore.list store e.settings.ns = .ok cs) :
    ∃ cs, ChunkStore.list c.store e.settings.ns = .ok cs := by
  cases h with
  | of_steps hdeletes _ hcreates _ =>
      have hshrinks := hdeletes.shrinks hvalid
      have hgrows := hcreates.grows hshrinks.valid Batch.creatable_chunksOf (.start ..)
      exact hgrows.listable (hshrinks.listable hlist)

theorem Cycles.holds_iff (h : e.Cycles fleet store dispatcher now c)
    (hvalid : LawfulStore.Valid e.settings.ns store)
    (hknown : ∀ c', LawfulStore.Holds e.settings.ns store c' → c'.name ∈ e.previous)
    (hdeletes : c.report.deletesFailed = 0) (hcreates : c.report.chunksFailed = 0) :
    LawfulStore.Valid e.settings.ns c.store ∧
      ∀ c', LawfulStore.Holds e.settings.ns c.store c' ↔ c' ∈ e.chunksToStore fleet now := by
  cases h with
  | @of_steps deletes creates hdeletesteps hdeleted hcreatesteps hcreated =>
      have hnofail : deletes.failed = [] := List.length_eq_zero_iff.mp hdeletes
      have hnoloss : creates.failed = [] := List.length_eq_zero_iff.mp hcreates
      have hshrinks := hdeletesteps.shrinks hvalid
      have hempty : ∀ c', ¬LawfulStore.Holds e.settings.ns deletes.store c' := by
        intro c' hc'
        have hname := hknown c' (hshrinks.holds c' hc')
        rcases hdeletesteps.accounts.succeeded_or_failed hdeleted hname with hgone | hfailed
        · exact absurd (hshrinks.gone c' hc' hgone) List.not_mem_nil
        · rw [hnofail] at hfailed
          cases hfailed
      have hgrows := hcreatesteps.grows hshrinks.valid Batch.creatable_chunksOf (.start ..)
      have hsucceeded : creates.succeeded.Perm (e.chunksToStore fleet now) :=
        (Batch.succeeded_perm_of_failed hnoloss).trans (hcreatesteps.accounts.finished_perm hcreated)
      refine ⟨hgrows.valid, fun c' => ⟨fun hc' => ?_, fun hc' => ?_⟩⟩
      · rcases hgrows.holds c' hc' with hold | hnew
        · exact absurd hold (hempty c')
        · exact hsucceeded.mem_iff.mp hnew
      · rcases hgrows.added c' (hsucceeded.mem_iff.mpr hc') with hold | hnew
        · cases hold
        · exact hnew

theorem Cycles.list_perm (h : e.Cycles fleet store dispatcher now c)
    (hvalid : LawfulStore.Valid e.settings.ns store)
    (hknown : ∀ c', LawfulStore.Holds e.settings.ns store c' → c'.name ∈ e.previous)
    (hdeletes : c.report.deletesFailed = 0) (hcreates : c.report.chunksFailed = 0) {cs : List Chunk}
    (hlist : ChunkStore.list c.store e.settings.ns = .ok cs) : cs.Perm (e.chunksToStore fleet now) := by
  obtain ⟨hvalid', hholds⟩ := h.holds_iff hvalid hknown hdeletes hcreates
  have hnodup : cs.Nodup := (LawfulStore.nodup_list hvalid' hlist).of_map _
  have hnodup' : (e.chunksToStore fleet now).Nodup := nodup_names_chunksOf.of_map _
  refine (List.perm_ext_iff_of_nodup hnodup hnodup').mpr fun c' => ?_
  exact (LawfulStore.mem_list hvalid' hlist).trans (hholds c')

/-- A cycle without failures is read back as the agents it stored, in whatever order the store lists
the chunks. -/
theorem Cycles.ofChunks (h : e.Cycles fleet store dispatcher now c)
    (hvalid : LawfulStore.Valid e.settings.ns store)
    (hknown : ∀ c', LawfulStore.Holds e.settings.ns store c' → c'.name ∈ e.previous)
    (hdeletes : c.report.deletesFailed = 0) (hcreates : c.report.chunksFailed = 0)
    (hg : e.generation < UInt64.size) (hsize : c.report.storedBytes < UInt64.size) {cs cs' : List Chunk}
    (hlist : ChunkStore.list c.store e.settings.ns = .ok cs) (hcs : cs'.Perm cs) :
    Restored.ofChunks e.settings.codec cs' =
      ⟨e.agentsToStore fleet now, some e.generation, cs'.map (·.name), e.generation + 1⟩ := by
  have hperm := hcs.trans (h.list_perm hvalid hknown hdeletes hcreates hlist)
  cases h with
  | of_steps => exact Restored.ofChunks_of_perm hg hsize hperm

end EdgeFleet.Engine
