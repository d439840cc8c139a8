import EdgeFleet.Proofs.Snapshot.History

/-! # The chunks an engine answers for

Of the chunks in the store, an engine's own are those it found when it began and those it has written
since, as long as they are there. Others may write and delete as they like; the engine knows the names
of all chunks of its own at the end of every cycle, and so the next one replaces them all.
-/

namespace EdgeFleet

/-- A history, and the chunks that are the engine's own at its end. -/
structure Tenure (σ : Type) where
  history : History σ
  own : Chunk → Prop

namespace Tenure

variable {σ : Type} [ChunkStore σ] [LawfulStore σ] {ns : String} {codec : Codec}

/-- What becomes the engine's own by a step: all that it finds, and then all that it creates. -/
def Gains : LifeStage σ → LifeStage σ → Chunk → Prop
  | .down _, .idle _ _, _ => True
  | _, .creating _ _ creates, c => c ∈ creates.succeeded
  | _, _, _ => False

inductive Step (ns : String) (codec : Codec) : Tenure σ → Tenure σ → Prop
  | work {t : Tenure σ} {h : History σ} (hstep : History.Step ns codec t.history h) :
      Step ns codec t ⟨h, fun c => LawfulStore.Holds ns h.store c ∧
        (t.own c ∨ Gains t.history.stage h.stage c)⟩
  /-- Others change the store, in whatever way. -/
  | others {t : Tenure σ} {store : σ} (hvalid : LawfulStore.Valid ns store) :
      Step ns codec t ⟨⟨t.history.stage.withStore store, t.history.cycles⟩,
        fun c => LawfulStore.Holds ns store c ∧ t.own c⟩

/-- Any number of steps. -/
abbrev Steps (ns : String) (codec : Codec) : Tenure σ → Tenure σ → Prop :=
  Relation.ReflTransGen (Step ns codec)

/-- An engine that is yet to read the store, or one that starts anew without reading it. -/
inductive Begins (ns : String) (codec : Codec) : Tenure σ → Prop
  | down {store : σ} (cycles : List CycleLog) (hvalid : LawfulStore.Valid ns store) :
      Begins ns codec ⟨⟨.down store, cycles⟩, fun _ => False⟩
  | anew {store : σ} (cycles : List CycleLog) (hvalid : LawfulStore.Valid ns store)
      {settings : SnapshotSettings} (hns : settings.ns = ns) (hcodec : settings.codec = codec) :
      Begins ns codec ⟨⟨.idle (.start settings) store, cycles⟩, fun _ => False⟩

/-! ## The names of the own chunks -/

def EngineFits (ns : String) (codec : Codec) (e : Engine) : Prop :=
  e.settings.ns = ns ∧ e.settings.codec = codec

/-- Where the names of the engine's own chunks are kept. -/
def Named (ns : String) (codec : Codec) : LifeStage σ → (Chunk → Prop) → Prop
  | .down _, _ => True
  | .idle e _, own => EngineFits ns codec e ∧ ∀ c, own c → c.name ∈ e.previous
  | .deleting e b, own => EngineFits ns codec e ∧ Batch.Accounts e.settings.effort e.previous b ∧
      ∀ c, own c → c.name ∈ e.previous ∧ c.name ∉ b.succeeded
  | .creating e kept b, own => EngineFits ns codec e ∧
      (∃ items, Batch.Creatable ns items ∧ Batch.Accounts e.settings.effort items b) ∧
      ∀ c, own c → c.name ∈ kept ∨ c ∈ b.succeeded

/-- The engine knows its own chunks by name. -/
structure Sound (ns : String) (codec : Codec) (t : Tenure σ) : Prop where
  valid : LawfulStore.Valid ns t.history.store
  named : Named ns codec t.history.stage t.own

omit [ChunkStore σ] [LawfulStore σ] in
theorem Named.withStore {s : LifeStage σ} {own own' : Chunk → Prop} (h : Named ns codec s own) (store : σ)
    (hown : ∀ c, own' c → own c ∨ Gains s (s.withStore store) c) :
    Named ns codec (s.withStore store) own' := by
  cases s with
  | down _ => trivial
  | idle e _ => exact ⟨h.1, fun c hc => h.2 c ((hown c hc).resolve_right id)⟩
  | deleting e b =>
      obtain ⟨hfits, haccounts, hnamed⟩ := h
      exact ⟨hfits, ⟨haccounts.items, haccounts.room, haccounts.tries⟩,
        fun c hc => hnamed c ((hown c hc).resolve_right id)⟩
  | creating e kept b =>
      obtain ⟨hfits, ⟨items, hitems, haccounts⟩, hnamed⟩ := h
      refine ⟨hfits, ⟨items, hitems, haccounts.items, haccounts.room, haccounts.tries⟩, fun c hc => ?_⟩
      rcases hown c hc with hc | hc
      · exact hnamed c hc
      · exact .inr hc

namespace Sound

theorem start {store : σ} {cycles : List CycleLog} {own : Chunk → Prop}
    (hvalid : LawfulStore.Valid ns store) {settings : SnapshotSettings} {r : Restored}
    (hns : settings.ns = ns) (hcodec : settings.codec = codec) (hr : restore store ns codec = .ok r)
    (hown : ∀ c, own c → LawfulStore.Holds ns store c) :
    Sound ns codec ⟨⟨.idle (.resume settings r) store, cycles⟩, own⟩ := by
  refine ⟨hvalid, ⟨hns, hcodec⟩, fun c hc => ?_⟩
  obtain ⟨cs, hlist, rfl⟩ := restore_eq_ok.mp hr
  exact List.mem_map.mpr ⟨c, (LawfulStore.mem_list hvalid hlist).mpr (hown c hc), rfl⟩

theorem work {t : Tenure σ} {h : History σ} (hsound : Sound ns codec t)
    (hstep : History.Step ns codec t.history h) : Sound ns codec
      ⟨h, fun c => LawfulStore.Holds ns h.store c ∧ (t.own c ∨ Gains t.history.stage h.stage c)⟩ := by
  obtain ⟨⟨stage, cycles⟩, own⟩ := t
  obtain ⟨hvalid, hnamed⟩ := hsound
  cases hstep with
  | start hns hcodec hr => exact .start hvalid hns hcodec hr fun c hc => hc.1
  | begin agents =>
      obtain ⟨hfits, hnamed⟩ := hnamed
      exact ⟨hvalid, hfits, .start .., fun c hc =>
        ⟨hnamed c (hc.2.resolve_right id), List.not_mem_nil⟩⟩
  | delete hdelete =>
      obtain ⟨hfits, haccounts, hnamed⟩ := hnamed
      have hshrinks := hdelete.shrinks hvalid
      refine ⟨hshrinks.valid, hfits, haccounts.step hdelete, fun c hc => ?_⟩
      obtain ⟨hname, hleft⟩ := hnamed c (hc.2.resolve_right id)
      exact ⟨hname, fun hgone => hleft (hshrinks.gone c hc.1 hgone)⟩
  | turn hdone =>
      obtain ⟨hfits, haccounts, hnamed⟩ := hnamed
      refine ⟨hvalid, hfits, ⟨_, Batch.creatable_chunksOf, .start ..⟩, fun c hc => .inl ?_⟩
      obtain ⟨hname, hleft⟩ := hnamed c (hc.2.resolve_right List.not_mem_nil)
      exact (haccounts.succeeded_or_failed hdone hname).resolve_left hleft
  | create hcreate =>
      obtain ⟨hfits, ⟨items, hitems, haccounts⟩, hnamed⟩ := hnamed
      have hgrows := hcreate.grows hvalid hitems haccounts
      refine ⟨hgrows.valid, hfits, ⟨items, hitems, haccounts.step hcreate⟩, fun c hc => ?_⟩
      rcases hc.2 with hold | hnew
      · exact (hnamed c hold).imp_right (hgrows.succeeded c)
      · exact .inr hnew
  | finish hdone =>
      obtain ⟨hfits, -, hnamed⟩ := hnamed
      refine ⟨hvalid, hfits, fun c hc => List.mem_append.mpr ?_⟩
      exact (hnamed c (hc.2.resolve_right id)).imp_right fun hnew => List.mem_map.mpr ⟨c, hnew, rfl⟩
  | crash => exact ⟨hvalid, trivial⟩
  | disturb hvalid' hlost =>
      exact ⟨by rwa [History.store, LifeStage.store_withStore], hnamed.withStore _ fun c hc => hc.2⟩

theorem step {t t' : Tenure σ} (hsound : Sound ns codec t) (hstep : Step ns codec t t') :
    Sound ns codec t' := by
  cases hstep with
  | work hstep => exact hsound.work hstep
  | others hvalid =>
      exact ⟨by rwa [History.store, LifeStage.store_withStore],
        hsound.named.withStore _ fun c hc => .inl hc.2⟩

theorem steps {t t' : Tenure σ} (hsound : Sound ns codec t) (hsteps : Steps ns codec t t') :
    Sound ns codec t' := by
  induction hsteps with
  | refl => exact hsound
  | tail _ hstep ih => exact ih.step hstep

theorem begins {t : Tenure σ} (h : Begins ns codec t) : Sound ns codec t := by
  cases h with
  | down cycles hvalid => exact ⟨hvalid, trivial⟩
  | anew cycles hvalid hns hcodec => exact ⟨hvalid, ⟨hns, hcodec⟩, fun c hc => hc.elim⟩

end Sound

/-! ## Reading back what a cycle stored -/

/-- No call of the cycle has failed for good, and what it stored has a size of 64 bits. -/
structure Succeeded (c : Cycle σ) : Prop where
  deletes : c.report.deletesFailed = 0
  creates : c.report.chunksFailed = 0
  size : c.report.storedBytes < UInt64.size

/-- The store gives back the fleet as it was swept, in whatever order it lists the chunks. -/
def ReadsBack (codec : Codec) (e : Engine) (fleet : Fleet) (now : Timestamp) (c : Cycle σ) : Prop :=
  c.fleet.registry = (fleet.sweep e.settings.heartbeatTimeout now).2.registry ∧
    ∃ cs, ChunkStore.list c.store e.settings.ns = .ok cs ∧
      restore c.store e.settings.ns codec = .ok (.ofChunks codec cs) ∧
      ∀ cs' : List Chunk, cs'.Perm cs →
        (Restored.ofChunks codec cs').agents = c.fleet.registry.agents ∧
        (Restored.ofChunks codec cs').generation = some e.generation ∧
        (Restored.ofChunks codec cs').nextGeneration = e.generation + 1 ∧
        (Restored.ofChunks codec cs').names.Perm ((e.chunksToStore fleet now).map (·.name))

/-- When all chunks there are the engine's own, a cycle without failures is read back as it was stored:
in whatever order its calls are over, and so when it is run. -/
theorem restore_of_cycles {t₀ t : Tenure σ} (hbegins : Begins ns codec t₀) (hsteps : Steps ns codec t₀ t)
    {e : Engine} {store : σ} (hidle : t.history.stage = .idle e store)
    (hown : ∀ c, LawfulStore.Holds ns store c → t.own c) (hlist : ∃ cs, ChunkStore.list store ns = .ok cs)
    (hgeneration : e.generation + 1 < UInt64.size) (fleet : Fleet) (dispatcher : Dispatcher)
    (now : Timestamp) :
    e.settings.ns = ns ∧
      (∀ c, e.Cycles fleet store dispatcher now c → Succeeded c → ReadsBack codec e fleet now c) ∧
      (Succeeded (e.cycle fleet store dispatcher now) →
        ReadsBack codec e fleet now (e.cycle fleet store dispatcher now)) := by
  obtain ⟨hvalid, hnamed⟩ := (Sound.begins hbegins).steps hsteps
  rw [History.store, hidle] at hvalid
  rw [hidle] at hnamed
  obtain ⟨⟨rfl, rfl⟩, hnamed⟩ := hnamed
  have hknown : ∀ c', LawfulStore.Holds e.settings.ns store c' → c'.name ∈ e.previous :=
    fun c' hc' => hnamed c' (hown c' hc')
  have hread : ∀ c, e.Cycles fleet store dispatcher now c → Succeeded c →
      ReadsBack e.settings.codec e fleet now c := by
    intro c hcycles hsucceeded
    obtain ⟨cs, hcs⟩ := hcycles.listable hvalid hlist
    refine ⟨by cases hcycles; rfl, cs, hcs, restore_eq_ok.mpr ⟨cs, hcs, rfl⟩, fun cs' hperm => ?_⟩
    have hread := hcycles.ofChunks hvalid hknown hsucceeded.deletes hsucceeded.creates
      (Nat.lt_of_succ_lt hgeneration) hsucceeded.size hcs hperm
    have hchunks := hcycles.list_perm hvalid hknown hsucceeded.deletes hsucceeded.creates hcs
    rw [hread]
    exact ⟨by cases hcycles; rfl, rfl, rfl, (hperm.trans hchunks).map (·.name)⟩
  exact ⟨rfl, hread, hread _ (e.cycles_cycle fleet store dispatcher now)⟩

/-- A cycle that replaces what was left of a snapshot of old. -/
theorem restore_of_cycles_remnant :
    let remnant : Chunk := .make "fleet" 4 1 2 [7]
    let store : MemoryStore := (ChunkStore.create MemoryStore.empty remnant).2
    let e : Engine := .resume ⟨"fleet", .none, 100, ⟨2, 1, 0⟩, 60⟩ (.ofChunks .none [remnant])
    let fleet : Fleet := ((default : Fleet).consume (.ofName "edge-1") .epoch).2
    let c : Cycle MemoryStore := e.cycle fleet store (.ofCapacity 1) .epoch
    c.fleet.registry.agents.keys = ["edge-1"] ∧ ∃ cs, ChunkStore.list c.store "fleet" = .ok cs ∧
      ∀ cs' : List Chunk, cs'.Perm cs →
        (Restored.ofChunks .none cs').agents = c.fleet.registry.agents ∧
        (Restored.ofChunks .none cs').generation = some 5 ∧
        (Restored.ofChunks .none cs').nextGeneration = 6 ∧
        (Restored.ofChunks .none cs').names.Perm ["5-0", "5-1"] := by
  intro remnant store e fleet c
  have hlist : ChunkStore.list store "fleet" = .ok [remnant] := by decide +kernel
  have hvalid : LawfulStore.Valid "fleet" store :=
    LawfulStore.valid_create MemoryStore.valid_empty rfl ⟨4, 1, rfl⟩
  have hrestore : restore store "fleet" .none = .ok (.ofChunks .none [remnant]) :=
    restore_eq_ok.mpr ⟨_, hlist, rfl⟩
  have hsteps : Steps "fleet" .none ⟨⟨.down store, []⟩, fun _ => False⟩
      ⟨⟨.idle e store, []⟩, fun c => LawfulStore.Holds "fleet" store c ∧ (False ∨ True)⟩ :=
    .single (.work (.start rfl rfl hrestore))
  have hsucceeded : Succeeded c := ⟨by decide +kernel, by decide +kernel, by decide +kernel⟩
  obtain ⟨-, -, hread⟩ := restore_of_cycles (.down [] hvalid) hsteps rfl (fun c hc => ⟨hc, .inr trivial⟩)
    ⟨_, hlist⟩ (by decide +kernel) fleet (.ofCapacity 1) .epoch
  obtain ⟨-, cs, hcs, -, hread⟩ := hread hsucceeded
  refine ⟨by decide +kernel, cs, hcs, fun cs' hperm => ?_⟩
  obtain ⟨hagents, hgeneration, hnext, hnames⟩ := hread cs' hperm
  have hg : e.generation = 5 := by decide +kernel
  have hchunks : (e.chunksToStore fleet .epoch).map (·.name) = ["5-0", "5-1"] := by decide +kernel
  rw [hg] at hgeneration hnext
  rw [hchunks] at hnames
  exact ⟨hagents, hgeneration, hnext, hnames⟩

end Tenure

end EdgeFleet
