import EdgeFleet.Proofs.Snapshot.History

/-! # No snapshot is torn

Every chunk in the store is one of the chunks of the latest cycle of its generation. A new life numbers
its cycles above all generations in the store, so no two cycles share the chunks of a generation, and
what is read back is what one cycle stored.
-/

namespace EdgeFleet.History

variable {σ : Type} [ChunkStore σ] [LawfulStore σ] {ns : String} {codec : Codec}

/-! ## The invariant -/

/-- The chunk belongs to the latest cycle of its generation, and that cycle has written it. -/
structure Attributed (ns : String) (codec : Codec) (cycles : List CycleLog) (g : Nat) (c : Chunk)
    (i : Nat) (log : CycleLog) : Prop where
  cycle : cycles[i]? = some log
  generation : log.generation = g
  latest : ∀ j < i, ∀ log', cycles[j]? = some log' → log'.generation ≠ g
  chunk : c ∈ log.chunks ns codec
  written : c.name ∈ log.written

/-- The generations in the store are numbered below `bound`. -/
def Below (ns : String) (store : σ) (bound : Nat) : Prop :=
  ∀ c, LawfulStore.Holds ns store c → ∀ g, c.partOf? = some g → g < bound

/-- What is known of a controller besides its store. -/
def StageSound (ns : String) (codec : Codec) : LifeStage σ → List CycleLog → Prop
  | .down _, _ => True
  | .idle e store, _ => e.settings.ns = ns ∧ e.settings.codec = codec ∧ Below ns store e.generation
  | .deleting e b, cycles => e.settings.ns = ns ∧ e.settings.codec = codec ∧
      Below ns b.store e.generation ∧ ∃ log rest, cycles = log :: rest ∧
        log.generation = e.generation ∧ log.written = []
  | .creating e _ b, cycles => e.settings.ns = ns ∧ e.settings.codec = codec ∧
      Below ns b.store (e.generation + 1) ∧ ∃ log rest, cycles = log :: rest ∧
        log.generation = e.generation ∧ log.written = b.succeeded.map (·.name) ∧
        Batch.Accounts e.settings.effort (log.chunks ns codec) b

theorem Below.mono {store store' : σ} {bound : Nat} (h : Below ns store bound)
    (hlost : ∀ c, LawfulStore.Holds ns store' c → LawfulStore.Holds ns store c) : Below ns store' bound :=
  fun c hc => h c (hlost c hc)

theorem StageSound.withStore {s : LifeStage σ} {cycles : List CycleLog} (h : StageSound ns codec s cycles)
    {store : σ} (hlost : ∀ c, LawfulStore.Holds ns store c → LawfulStore.Holds ns s.store c) :
    StageSound ns codec (s.withStore store) cycles := by
  cases s with
  | down _ => trivial
  | idle e _ => exact ⟨h.1, h.2.1, h.2.2.mono hlost⟩
  | deleting e b => exact ⟨h.1, h.2.1, h.2.2.1.mono hlost, h.2.2.2⟩
  | creating e kept b =>
      obtain ⟨hns, hcodec, hbelow, log, rest, hcons, hgeneration, hwritten, haccounts⟩ := h
      exact ⟨hns, hcodec, hbelow.mono hlost, log, rest, hcons, hgeneration, hwritten,
        haccounts.items, haccounts.room, haccounts.tries⟩

/-- What is known of a history of one namespace and codec. -/
structure Sound (ns : String) (codec : Codec) (h : History σ) : Prop where
  valid : LawfulStore.Valid ns h.store
  attributed : ∀ c, LawfulStore.Holds ns h.store c → ∀ g, c.partOf? = some g →
    ∃ i log, Attributed ns codec h.cycles g c i log
  /-- A cycle writes only names of its own generation. -/
  names : ∀ log ∈ h.cycles, ∀ name ∈ log.written, ∃ i, name = Chunk.nameOf log.generation i
  stage : StageSound ns codec h.stage h.cycles

/-! ## The record of cycles -/

namespace Attributed

variable {cycles : List CycleLog} {g i : Nat} {c : Chunk} {log : CycleLog}

theorem push (h : Attributed ns codec cycles g c i log) {new : CycleLog} (hnew : new.generation ≠ g) :
    Attributed ns codec (new :: cycles) g c (i + 1) log where
  cycle := h.cycle
  generation := h.generation
  latest j hj log' hlog' := by
    cases j with
    | zero =>
        cases hlog'
        exact hnew
    | succ j => exact h.latest j (Nat.lt_of_succ_lt_succ hj) log' hlog'
  chunk := h.chunk
  written := h.written

theorem append {first : CycleLog} (h : Attributed ns codec (first :: cycles) g c i log)
    {names : List String} (hnames : ∀ name ∈ first.written, name ∈ names) :
    ∃ log', Attributed ns codec ({ first with written := names } :: cycles) g c i log' := by
  cases i with
  | zero =>
      have hfirst : first = log := Option.some.inj h.cycle
      subst hfirst
      exact ⟨_, rfl, h.generation, fun j hj => absurd hj (Nat.not_lt_zero j), h.chunk,
        hnames _ h.written⟩
  | succ i =>
      refine ⟨log, h.cycle, h.generation, fun j hj log' hlog' => ?_, h.chunk, h.written⟩
      cases j with
      | zero =>
          cases hlog'
          exact h.latest 0 hj first rfl
      | succ j => exact h.latest (j + 1) hj log' hlog'

/-- The chunks of a generation have one cycle in common. -/
theorem unique {c' : Chunk} {i' : Nat} {log' : CycleLog} (h : Attributed ns codec cycles g c i log)
    (h' : Attributed ns codec cycles g c' i' log') : i = i' ∧ log = log' := by
  have hi : i = i' := by
    rcases Nat.lt_trichotomy i i' with hlt | heq | hlt
    · exact absurd h.generation (h'.latest i hlt log h.cycle)
    · exact heq
    · exact absurd h'.generation (h.latest i' hlt log' h'.cycle)
  subst hi
  exact ⟨rfl, Option.some.inj (h.cycle.symm.trans h'.cycle)⟩

omit [ChunkStore σ] [LawfulStore σ] in
/-- No later cycle has written a chunk of the name. -/
theorem writer? {h : History σ} (hc : Attributed ns codec h.cycles g c i log)
    (hnames : ∀ log ∈ h.cycles, ∀ name ∈ log.written, ∃ k, name = Chunk.nameOf log.generation k) :
    h.writer? c.name = some i := by
  obtain ⟨hi, hlog⟩ := List.getElem?_eq_some_iff.mp hc.cycle
  rw [History.writer?, List.findIdx?_eq_some_iff_getElem]
  refine ⟨hi, by simpa [hlog] using hc.written, fun j hj => ?_⟩
  have hj' : j < h.cycles.length := Nat.lt_trans hj hi
  rw [Bool.not_eq_true, List.contains_eq_mem, decide_eq_false_iff_not]
  intro hmem
  -- The name would be that of another generation.
  obtain ⟨k, hk⟩ := hnames _ (List.getElem_mem hj') _ hmem
  obtain ⟨m, hm⟩ := hnames _ (List.mem_of_getElem? hc.cycle) _ hc.written
  have hsame := (Chunk.nameOf_injective (hk.symm.trans hm)).1
  exact hc.latest j hj _ (List.getElem?_eq_getElem hj') (hsame.trans hc.generation)

end Attributed

/-! ## Steps -/

theorem name_of_mem_chunks {log : CycleLog} {c : Chunk} (h : c ∈ log.chunks ns codec) :
    ∃ i, c.name = Chunk.nameOf log.generation i := by
  obtain ⟨i, piece, -, rfl⟩ := mem_chunksOf.mp h
  exact ⟨i, rfl⟩

theorem generation_of_mem_chunks {log : CycleLog} {c : Chunk} (h : c ∈ log.chunks ns codec) {g : Nat}
    (hg : c.partOf? = some g) : log.generation = g := by
  rw [partOf?_of_mem_chunksOf h] at hg
  split at hg
  · exact Option.some.inj hg
  · cases hg

namespace Sound

theorem start {store : σ} {cycles : List CycleLog} (h : Sound ns codec ⟨.down store, cycles⟩)
    {settings : SnapshotSettings} {r : Restored} (hns : settings.ns = ns) (hcodec : settings.codec = codec)
    (hr : restore store ns codec = .ok r) : Sound ns codec ⟨.idle (.resume settings r) store, cycles⟩ := by
  refine ⟨h.valid, h.attributed, h.names, hns, hcodec, fun c hc g hg => ?_⟩
  obtain ⟨cs, hlist, rfl⟩ := restore_eq_ok.mp hr
  have hmem : c ∈ cs := (LawfulStore.mem_list h.valid hlist).mpr hc
  have hlt : g < (Restored.ofChunks codec cs).nextGeneration := Restored.lt_nextGeneration hmem hg
  exact hlt

theorem begin {e : Engine} {store : σ} {cycles : List CycleLog} (h : Sound ns codec ⟨.idle e store, cycles⟩)
    (agents : AgentMap) : Sound ns codec ⟨.deleting e (.start e.settings.effort store e.previous),
      ⟨e.generation, e.settings.maxChunkBytes, agents, []⟩ :: cycles⟩ := by
  obtain ⟨hns, hcodec, hbelow⟩ := h.stage
  refine ⟨h.valid, fun c hc g hg => ?_, ?_, hns, hcodec, hbelow, _, _, rfl, rfl, rfl⟩
  · obtain ⟨i, log, hlog⟩ := h.attributed c hc g hg
    exact ⟨i + 1, log, hlog.push (Nat.ne_of_gt (hbelow c hc g hg))⟩
  · intro log hlog name hname
    rcases List.mem_cons.mp hlog with rfl | hlog
    · cases hname
    · exact h.names log hlog name hname

/-- Chunks may vanish at any time. -/
theorem vanish {stage stage' : LifeStage σ} {cycles : List CycleLog} (h : Sound ns codec ⟨stage, cycles⟩)
    (hvalid : LawfulStore.Valid ns stage'.store)
    (hlost : ∀ c, LawfulStore.Holds ns stage'.store c → LawfulStore.Holds ns stage.store c)
    (hstage : StageSound ns codec stage' cycles) : Sound ns codec ⟨stage', cycles⟩ :=
  ⟨hvalid, fun c hc => h.attributed c (hlost c hc), h.names, hstage⟩

theorem delete {e : Engine} {b b' : Batch σ String} {cycles : List CycleLog}
    (h : Sound ns codec ⟨.deleting e b, cycles⟩)
    (hstep : Batch.Step e.settings.effort (deleteCall ns) b b') : Sound ns codec ⟨.deleting e b', cycles⟩ := by
  obtain ⟨hns, hcodec, hbelow, hlog⟩ := h.stage
  have hshrinks := hstep.shrinks h.valid
  exact h.vanish hshrinks.valid hshrinks.holds ⟨hns, hcodec, hbelow.mono hshrinks.holds, hlog⟩

theorem turn {e : Engine} {b : Batch σ String} {log : CycleLog} {cycles : List CycleLog}
    (h : Sound ns codec ⟨.deleting e b, log :: cycles⟩) :
    Sound ns codec ⟨.creating e b.failed
      (.start e.settings.effort b.store (log.chunks ns codec)), log :: cycles⟩ := by
  obtain ⟨hns, hcodec, hbelow, log', rest, hcons, hgeneration, hwritten⟩ := h.stage
  obtain ⟨rfl, rfl⟩ := List.cons.inj hcons
  exact ⟨h.valid, h.attributed, h.names, hns, hcodec,
    fun c hc g hg => Nat.lt_succ_of_lt (hbelow c hc g hg),
    log, cycles, rfl, hgeneration, hwritten, Batch.Accounts.start ..⟩

theorem create {e : Engine} {kept : List String} {b b' : Batch σ Chunk} {log : CycleLog}
    {cycles : List CycleLog} (h : Sound ns codec ⟨.creating e kept b, log :: cycles⟩)
    (hstep : Batch.Step e.settings.effort createCall b b') :
    Sound ns codec ⟨.creating e kept b',
      { log with written := b'.succeeded.map (·.name) } :: cycles⟩ := by
  obtain ⟨hns, hcodec, hbelow, log', rest, hcons, hgeneration, hwritten, haccounts⟩ := h.stage
  obtain ⟨rfl, rfl⟩ := List.cons.inj hcons
  have haccounts' := haccounts.step hstep
  have hgrows := hstep.grows h.valid Batch.creatable_chunksOf haccounts
  -- What was not held before has just been created.
  have hheld : ∀ c, LawfulStore.Holds ns b'.store c →
      LawfulStore.Holds ns b.store c ∨ c ∈ log.chunks ns codec ∧ c ∈ b'.succeeded := fun c hc =>
    (hgrows.holds c hc).imp_right fun hnew =>
      ⟨haccounts'.mem_of_finished (Batch.mem_succeeded.mp hnew), hnew⟩
  have hgrow : ∀ name ∈ log.written, name ∈ b'.succeeded.map (·.name) := by
    intro name hname
    rw [hwritten] at hname
    obtain ⟨c, hc, rfl⟩ := List.mem_map.mp hname
    exact List.mem_map.mpr ⟨c, hgrows.succeeded c hc, rfl⟩
  refine ⟨hgrows.valid, fun c hc g hg => ?_, ?_, hns, hcodec, fun c hc g hg => ?_,
    _, _, rfl, hgeneration, rfl, haccounts'⟩
  · rcases hheld c hc with hold | ⟨hchunk, hsucceeded⟩
    · obtain ⟨i, log', hlog'⟩ := h.attributed c hold g hg
      obtain ⟨log'', hlog''⟩ := hlog'.append hgrow
      exact ⟨i, log'', hlog''⟩
    · exact ⟨0, _, rfl, generation_of_mem_chunks hchunk hg, fun j hj => absurd hj (Nat.not_lt_zero j),
        hchunk, List.mem_map.mpr ⟨c, hsucceeded, rfl⟩⟩
  · intro log' hlog' name hname
    rcases List.mem_cons.mp hlog' with rfl | hlog'
    · obtain ⟨c, hc, rfl⟩ := List.mem_map.mp hname
      exact name_of_mem_chunks (haccounts'.mem_of_finished (Batch.mem_succeeded.mp hc))
    · exact h.names log' (List.mem_cons_of_mem _ hlog') name hname
  · rcases hheld c hc with hold | ⟨hchunk, -⟩
    · exact hbelow c hold g hg
    · rw [← generation_of_mem_chunks hchunk hg, hgeneration]
      exact Nat.lt_succ_self _

theorem finish {e : Engine} {kept : List String} {b : Batch σ Chunk} {cycles : List CycleLog}
    (h : Sound ns codec ⟨.creating e kept b, cycles⟩) : Sound ns codec
      ⟨.idle { e with generation := e.generation + 1, previous := kept ++ b.succeeded.map (·.name) }
        b.store, cycles⟩ := by
  obtain ⟨hns, hcodec, hbelow, -⟩ := h.stage
  exact ⟨h.valid, h.attributed, h.names, hns, hcodec, hbelow⟩

theorem step {h h' : History σ} (hsound : Sound ns codec h) (hstep : Step ns codec h h') :
    Sound ns codec h' := by
  cases hstep with
  | start hns hcodec hr => exact hsound.start hns hcodec hr
  | begin agents => exact hsound.begin agents
  | delete hdelete => exact hsound.delete hdelete
  | turn _ => exact hsound.turn
  | create hcreate => exact hsound.create hcreate
  | finish _ => exact hsound.finish
  | crash => exact ⟨hsound.valid, hsound.attributed, hsound.names, trivial⟩
  | disturb hvalid hlost =>
      refine hsound.vanish (by rwa [LifeStage.store_withStore]) ?_ ?_
      · intro c hc
        rw [LifeStage.store_withStore] at hc
        exact hlost c hc
      · exact hsound.stage.withStore hlost

theorem steps {h h' : History σ} (hsound : Sound ns codec h) (hsteps : Steps ns codec h h') :
    Sound ns codec h' := by
  induction hsteps with
  | refl => exact hsound
  | tail _ hstep ih => exact ih.step hstep

theorem empty {store : σ} (hvalid : LawfulStore.Valid ns store)
    (hempty : ∀ c, ¬LawfulStore.Holds ns store c) : Sound ns codec ⟨.down store, []⟩ :=
  ⟨hvalid, fun c hc => absurd hc (hempty c), fun _ hlog => absurd hlog List.not_mem_nil, trivial⟩

end Sound

/-! ## Reading the store -/

/-- Whatever lives there were, what is read back is nothing, or all that one of their cycles stored; and
that cycle was the last one to write each chunk of its generation. -/
theorem restore_of_steps {store : σ} (hvalid : LawfulStore.Valid ns store)
    (hempty : ∀ c, ¬LawfulStore.Holds ns store c) {h : History σ}
    (hsteps : Steps ns codec ⟨.down store, []⟩ h) {r : Restored} (hr : restore h.store ns codec = .ok r) :
    r.generation = none ∧ r.agents = ∅ ∨
      ∃ i log, h.cycles[i]? = some log ∧ r.generation = some log.generation ∧ r.agents = log.agents ∧
        ∀ c, LawfulStore.Holds ns h.store c → c.partOf? = r.generation → h.writer? c.name = some i := by
  have hsound : Sound ns codec h := (Sound.empty hvalid hempty).steps hsteps
  obtain ⟨cs, hlist, rfl⟩ := restore_eq_ok.mp hr
  have hheld : ∀ c, c ∈ cs ↔ LawfulStore.Holds ns h.store c := fun c =>
    LawfulStore.mem_list hsound.valid hlist
  cases hnewest : Restored.newest? codec cs with
  | none => exact .inl (by simp [Restored.ofChunks, hnewest])
  | some newest =>
      obtain ⟨g, agents⟩ := newest
      obtain ⟨hg, hread⟩ := Restored.newest?_spec hnewest
      obtain ⟨c, hc, hpart⟩ := Restored.mem_generations.mp hg
      obtain ⟨i, log, hlog⟩ := hsound.attributed c ((hheld c).mp hc) g hpart
      have hall : ∀ c', LawfulStore.Holds ns h.store c' → c'.partOf? = some g →
          Attributed ns codec h.cycles g c' i log := by
        intro c' hc' hpart'
        obtain ⟨i', log', hlog'⟩ := hsound.attributed c' hc' g hpart'
        obtain ⟨rfl, rfl⟩ := hlog.unique hlog'
        exact hlog'
      have hchunks : ∀ c' ∈ Restored.chunksIn cs g, c' ∈ log.chunks ns codec := by
        intro c' hc'
        obtain ⟨hmem, hpart'⟩ := Restored.mem_chunksIn.mp hc'
        exact (hall c' ((hheld c').mp hmem) hpart').chunk
      have hagents : agents = log.agents := Restored.eq_of_readAgents? hchunks hread
      have hrestored : (Restored.ofChunks codec cs).generation = some log.generation ∧
          (Restored.ofChunks codec cs).agents = log.agents := by
        simp [Restored.ofChunks, hnewest, hagents, hlog.generation]
      refine .inr ⟨i, log, hlog.cycle, hrestored.1, hrestored.2, fun c' hc' hpart' => ?_⟩
      rw [hrestored.1, hlog.generation] at hpart'
      exact (hall c' hc' hpart').writer? hsound.names

/-- A life that stored generation zero, and one that could not delete it and died after the first of its
own chunks. -/
theorem restore_of_steps_torn : ∃ (h : History MemoryStore) (r : Restored),
    Steps "fleet" .none ⟨.down MemoryStore.empty, []⟩ h ∧ restore h.store "fleet" .none = .ok r ∧
      r.names = ["0-0", "0-1", "1-0"] ∧ ∃ i log, h.cycles[i]? = some log ∧ r.generation = some 0 ∧
        log.generation = 0 ∧ r.agents = log.agents ∧
          ∀ c, LawfulStore.Holds "fleet" h.store c → c.partOf? = some 0 → h.writer? c.name = some i := by
  let settings : SnapshotSettings := ⟨"fleet", .none, 1, ⟨1, 1, 0⟩, 60⟩
  let e : Engine := .resume settings ⟨∅, none, [], 0⟩
  let log : CycleLog := ⟨0, 1, ∅, []⟩
  let creates : Batch MemoryStore Chunk := .start settings.effort .empty (log.chunks "fleet" .none)
  let created : Batch MemoryStore Chunk :=
    (creates.attempt settings.effort createCall 0).attempt settings.effort createCall 0
  let done : CycleLog := { log with written := created.succeeded.map (·.name) }
  let read : Restored := .ofChunks .none (log.chunks "fleet" .none)
  let e' : Engine := .resume settings read
  let log' : CycleLog := ⟨e'.generation, 1, ∅, []⟩
  let deletes' : Batch MemoryStore String := .start settings.effort created.store e'.previous
  let kept : Batch MemoryStore String :=
    (deletes'.attempt settings.effort Batch.refuse 0).attempt settings.effort Batch.refuse 0
  let creates' : Batch MemoryStore Chunk :=
    .start settings.effort kept.store (log'.chunks "fleet" .none)
  let torn : Batch MemoryStore Chunk := creates'.attempt settings.effort createCall 0
  have hstart : Step "fleet" .none ⟨.down MemoryStore.empty, []⟩ ⟨.idle e MemoryStore.empty, []⟩ :=
    .start rfl rfl (by decide +kernel)
  have hturn : Steps "fleet" .none ⟨.idle e MemoryStore.empty, []⟩ ⟨.creating e [] creates, [log]⟩ :=
    (Relation.ReflTransGen.single (.begin ∅)).tail (.turn rfl)
  have hcreated : Steps "fleet" .none ⟨.creating e [] creates, [log]⟩ ⟨.creating e [] created, [done]⟩ :=
    steps_create log [] rfl ((Relation.ReflTransGen.single (.attempt creates 0)).tail (.attempt _ 0))
  have hcrash : Step "fleet" .none ⟨.creating e [] created, [done]⟩ ⟨.down created.store, [done]⟩ :=
    .crash _
  have hread : restore created.store "fleet" .none = .ok read :=
    restore_eq_ok.mpr ⟨_, by decide +kernel, rfl⟩
  have hstart' : Step "fleet" .none ⟨.down created.store, [done]⟩ ⟨.idle e' created.store, [done]⟩ :=
    .start rfl rfl hread
  have hkept : Steps "fleet" .none ⟨.idle e' created.store, [done]⟩ ⟨.deleting e' kept, [log', done]⟩ :=
    .head (.begin ∅) (steps_delete _
      ((Relation.ReflTransGen.single (.refused deletes' 0)).tail (.refused _ 0)))
  have hturn' : Step "fleet" .none ⟨.deleting e' kept, [log', done]⟩
      ⟨.creating e' kept.failed creates', [log', done]⟩ := .turn (by decide +kernel)
  have htorn : Steps "fleet" .none ⟨.creating e' kept.failed creates', [log', done]⟩
      ⟨.down torn.store, [{ log' with written := torn.succeeded.map (·.name) }, done]⟩ :=
    (steps_create log' _ rfl (.single (.attempt creates' 0))).tail (.crash _)
  have hsteps : Steps "fleet" .none ⟨.down MemoryStore.empty, []⟩
      ⟨.down torn.store, [{ log' with written := torn.succeeded.map (·.name) }, done]⟩ :=
    .head hstart (hturn.trans (hcreated.trans
      (.head hcrash (.head hstart' (hkept.trans (.head hturn' htorn))))))
  let found : List Chunk := log.chunks "fleet" .none ++ (log'.chunks "fleet" .none).take 1
  have hlist : ChunkStore.list torn.store "fleet" = .ok found := by decide +kernel
  have hgenerations : Restored.generations found = [1, 0] := by
    have hparts : (found.filterMap Chunk.partOf?).eraseDups = [0, 1] := by decide +kernel
    rw [Restored.generations, hparts]
    simp [List.mergeSort]
  have hgap : Restored.readAgents? .none (Restored.chunksIn found 1) = none := by decide +kernel
  have hchunks : Restored.chunksIn found 0 = snapshotChunks "fleet" .none 0 1 ∅ := by
    have hfilter : found.filter (fun c => c.partOf? = some 0) = snapshotChunks "fleet" .none 0 1 ∅ := by
      decide +kernel
    rw [Restored.chunksIn, hfilter, List.mergeSort_of_pairwise (by decide +kernel)]
  have hwhole : Restored.readAgents? .none (Restored.chunksIn found 0) = some ∅ := by
    rw [hchunks]
    exact Restored.readAgents?_of_isComplete (fun c hc => hc) (by decide +kernel)
  have hzero : (Restored.ofChunks .none found).generation = some 0 := by
    simp [Restored.ofChunks, Restored.newest?, hgenerations, hgap, hwhole]
  have hrestore : restore torn.store "fleet" .none = .ok (.ofChunks .none found) :=
    restore_eq_ok.mpr ⟨found, hlist, rfl⟩
  refine ⟨_, _, hsteps, hrestore, by decide +kernel, ?_⟩
  rcases restore_of_steps MemoryStore.valid_empty MemoryStore.not_holds_empty hsteps hrestore with
    ⟨hnone, -⟩ | ⟨i, log, hi, hg, hagents, hall⟩
  · rw [hzero] at hnone
    cases hnone
  · rw [hzero] at hg hall
    exact ⟨i, log, hi, hzero, (Option.some.inj hg).symm, hagents, hall⟩

end EdgeFleet.History
