import EdgeFleet.Proofs.Snapshot.Calm
import EdgeFleet.Proofs.Snapshot.Life

/-! # Going on after what was found

An engine that goes on after a restart replaces all the chunks that were listed then. What was not listed, or
not under the name of its place, stays where it is: the engine cannot create a chunk there. In memory there is
nothing of the kind, so the first cycle that meets no failure of the store stores the whole snapshot.
-/

namespace EdgeFleet

open PlacedStore

variable {σ : Type} [ChunkStore σ] [PlacedStore σ] [LawfulPlaces σ]

/-- The place of a chunk is taken, and is that of none of the names. -/
structure Obstructed (ns : String) (s : σ) (names : List String) (n : String) : Prop where
  isChunkName : IsChunkName n
  taken : Taken ns s n
  unknown : ∀ p ∈ names, ¬OnePlace ns s p n

/-- The namespace holds as much as before, whether the store can be reached or not. -/
structure SamePlaces (ns : String) (s s' : σ) : Prop where
  sound : Sound ns s'
  onePlace : ∀ p n, OnePlace ns s' p n ↔ OnePlace ns s p n
  contents : (contents ns s').Perm (contents ns s)
  taken : ∀ n, Taken ns s' n ↔ Taken ns s n

namespace Engine

/-! ## What the engine keeps track of -/

/-- The engine knows the places that are taken, but for those that were obstructed when it began, and its
generation is above all that are stored. -/
structure Tracks (ns : String) (s₀ : σ) (names : List String) (e : Engine) (s : σ) : Prop where
  isOf : e.settings.ns = ns
  sound : Sound ns s
  onePlace : ∀ p n, OnePlace ns s p n ↔ OnePlace ns s₀ p n
  older : ∀ c ∈ contents ns s, ∀ g, c.partOf? = some g → g < e.generation
  known : ∀ n, IsChunkName n → Taken ns s n →
    (∃ p ∈ e.previous, OnePlace ns s₀ p n) ∨ Obstructed ns s₀ names n
  stays : ∀ n, Obstructed ns s₀ names n → Taken ns s n ∧ ∀ p ∈ e.previous, ¬OnePlace ns s₀ p n

variable {ns : String} {s₀ s s' : σ} {names : List String} {e : Engine}

theorem Tracks.resume {settings : SnapshotSettings} {codec : Codec} {r : Restored}
    (hs : Sound settings.ns s₀) (hr : restore s₀ settings.ns codec = .ok r) :
    Tracks settings.ns s₀ r.names (.resume settings r) s₀ where
  isOf := rfl
  sound := hs
  onePlace _ _ := Iff.rfl
  older c hc g hg := by
    obtain ⟨cs, hlist, rfl⟩ := restore_eq_ok.mp hr
    have hlt : g < (Restored.ofChunks codec cs).nextGeneration :=
      Restored.lt_nextGeneration ((LawfulPlaces.list_perm hs hlist).mem_iff.mpr hc) hg
    exact hlt
  known n hn htaken := by
    by_cases hknown : ∃ p ∈ r.names, OnePlace settings.ns s₀ p n
    · exact .inl hknown
    · exact .inr ⟨hn, htaken, fun p hp hplace => hknown ⟨p, hp, hplace⟩⟩
  stays _ hn := ⟨hn.taken, hn.unknown⟩

omit [LawfulPlaces σ] in
theorem Tracks.pause (h : Tracks ns s₀ names e s) (hsame : SamePlaces ns s s') : Tracks ns s₀ names e s' where
  isOf := h.isOf
  sound := hsame.sound
  onePlace p n := (hsame.onePlace p n).trans (h.onePlace p n)
  older c hc := h.older c (hsame.contents.mem_iff.mp hc)
  known n hn htaken := h.known n hn ((hsame.taken n).mp htaken)
  stays n hn := (h.stays n hn).imp_left (hsame.taken n).mpr

variable {fleet : Fleet} {dispatcher : Dispatcher} {now : Timestamp} {c : Cycle σ}

theorem Tracks.cycle (h : Tracks ns s₀ names e s) (hcycles : e.Cycles fleet s dispatcher now c) :
    Tracks ns s₀ names c.engine c.store := by
  obtain ⟨rfl, hsound, honePlace, holder, hknown, hstays⟩ := h
  cases hcycles with
  | @of_steps deletes creates hdeletes hdeleted hcreates hcreated =>
      have hclears := hdeletes.clears hsound
      have hfills := hcreates.fills hclears.sound Batch.creatable_chunksOf
      refine ⟨rfl, hfills.sound, fun p n => ?_, fun c' hc' g hg => ?_, fun n hn htaken => ?_, fun n hn => ?_⟩
      · exact (hfills.onePlace p n).trans ((hclears.onePlace p n).trans (honePlace p n))
      · refine Nat.lt_succ_of_le ?_
        rcases List.mem_append.mp (hfills.contents.mem_iff.mp hc') with hnew | hold
        · rw [partOf?_of_mem_chunksOf (hcreates.accounts.succeeded_subperm.subset hnew)] at hg
          split at hg
          · exact (Option.some.inj hg).ge
          · cases hg
        · exact (holder c' (hclears.contents hold) g hg).le
      · rcases (hfills.taken n hn).mp htaken with hold | hnew
        · obtain ⟨hbefore, hgone⟩ := hclears.taken n hold
          refine (hknown n hn hbefore).imp_left fun ⟨p, hp, hplace⟩ => ?_
          have hleft : p ∉ deletes.succeeded := fun hmem => hgone p hmem ((honePlace p n).mpr hplace)
          exact ⟨p, List.mem_append_left _ ((hdeletes.accounts.succeeded_or_failed hdeleted hp).resolve_left hleft),
            hplace⟩
        · exact .inl ⟨n, List.mem_append_right _ hnew, LawfulPlaces.onePlace_refl ..⟩
      · obtain ⟨hbefore, hunknown⟩ := hstays n hn
        have hbetween : Taken e.settings.ns deletes.store n :=
          hclears.stays n hbefore fun p hp => mt (honePlace p n).mp (hunknown p hp)
        refine ⟨(hfills.taken n hn.isChunkName).mpr (.inl hbetween), fun p hp hplace => ?_⟩
        rcases List.mem_append.mp hp with hfailed | hwritten
        · exact hunknown p (hdeletes.accounts.mem_of_finished (Batch.mem_failed.mp hfailed)) hplace
        · obtain ⟨new, hnew, rfl⟩ := List.mem_map.mp hwritten
          obtain ⟨hname, hfree⟩ := hfills.free new hnew
          exact hfree (LawfulPlaces.eq_of_onePlace hname hn.isChunkName hplace ▸ hbetween)

theorem Life.tracks {settings : SnapshotSettings} {codec : Codec} {r : Restored} {cs : List (Cycle σ)}
    (hs : Sound settings.ns s₀) (hr : restore s₀ settings.ns codec = .ok r)
    (h : Life Nat.succ (SamePlaces settings.ns) (.resume settings r) s₀ cs e s) :
    Tracks settings.ns s₀ r.names e s := by
  induction h with
  | begins => exact .resume hs hr
  | pause _ hsame ih => exact ih.pause hsame
  | cycle _ hcycles ih => exact hcycles.numbered_eq rfl ▸ ih.cycle hcycles

/-! ## A cycle without failures of the store -/

/-- The cycles of the engine in which no call to the store meets a failure. -/
inductive CalmCycles (e : Engine) (fleet : Fleet) (store : σ) (dispatcher : Dispatcher) (now : Timestamp) :
    Cycle σ → Prop
  | of_steps {deletes : Batch σ String} {creates : Batch σ Chunk}
      (hdeletes : Batch.CalmSteps e.settings.effort (deleteCall e.settings.ns)
        (Batch.deletionFault e.settings.ns) (.start e.settings.effort store e.previous) deletes)
      (hdeleted : deletes.running = [])
      (hcreates : Batch.CalmSteps e.settings.effort createCall Batch.creationFault
        (.start e.settings.effort deletes.store (e.chunksToStore fleet now)) creates)
      (hcreated : creates.running = []) :
      CalmCycles e fleet store dispatcher now
        (e.conclude (fleet.sweep e.settings.heartbeatTimeout now).2
          (fleet.sweep e.settings.heartbeatTimeout now).1 (e.agentsToStore fleet now).encode
          (e.settings.codec.compress (e.agentsToStore fleet now).encode) (.of deletes creates) dispatcher)

omit [PlacedStore σ] [LawfulPlaces σ] in
/-- Where the store never fails, the cycle that the engine runs is one without failures. -/
theorem calmCycles_cycle {Works : σ → Prop}
    (hdelete : ∀ s name, Works s →
      Batch.deletionFault e.settings.ns s name = false ∧ Works (deleteCall e.settings.ns s name).2)
    (hcreate : ∀ s c, Works s → Batch.creationFault s c = false ∧ Works (createCall s c).2) (hs : Works s)
    (fleet : Fleet) (dispatcher : Dispatcher) (now : Timestamp) :
    e.CalmCycles fleet s dispatcher now (e.cycle fleet s dispatcher now) := by
  obtain ⟨-, hdeleted⟩ := Batch.run_spec e.settings.effort (deleteCall e.settings.ns) s e.previous
  obtain ⟨-, hcreated⟩ := Batch.run_spec e.settings.effort createCall
    (Batch.run e.settings.effort (deleteCall e.settings.ns) s e.previous).store (e.chunksToStore fleet now)
  obtain ⟨hdeletes, hbetween⟩ := Batch.run_calm hdelete hs e.previous
  obtain ⟨hcreates, -⟩ := Batch.run_calm hcreate hbetween (e.chunksToStore fleet now)
  exact .of_steps hdeletes hdeleted hcreates hcreated

/-- A whole snapshot that was created beside older chunks is what is read back. -/
theorem ofChunks_of_fills {codec : Codec} {g max : Nat} {agents : AgentMap}
    {b : Batch σ Chunk} (h : Batch.Fills ns s b)
    (hall : b.succeeded.Perm (snapshotChunks ns codec g max agents))
    (holder : ∀ c ∈ contents ns s, ∀ g', c.partOf? = some g' → g' < g) (hg : g < UInt64.size)
    (hsize : (codec.compress agents.encode).length < UInt64.size) {cs : List Chunk}
    (hlist : ChunkStore.list b.store ns = .ok cs) :
    Restored.ofChunks codec cs = ⟨agents, some g, cs.map (·.name), g + 1⟩ := by
  have hperm : cs.Perm (b.succeeded ++ contents ns s) :=
    (LawfulPlaces.list_perm h.sound hlist).trans h.contents
  have hnew : ∀ c ∈ b.succeeded, c.partOf? = some g := fun c hc => by
    rw [partOf?_of_mem_chunksOf (hall.subset hc), if_pos hg]
  have hwhole : (cs.filter fun c => c.partOf? = some g).Perm (snapshotChunks ns codec g max agents) := by
    refine (hperm.filter _).trans ?_
    have hkept : b.succeeded.filter (fun c => c.partOf? = some g) = b.succeeded :=
      List.filter_eq_self.mpr fun c hc => decide_eq_true (hnew c hc)
    have hleft : (contents ns s).filter (fun c => c.partOf? = some g) = [] :=
      List.filter_eq_nil_iff.mpr fun c hc => by
        simpa using fun hpart => (holder c hc g hpart).ne rfl
    rw [List.filter_append, hkept, hleft, List.append_nil]
    exact hall
  refine Restored.ofChunks_of_newest hsize hwhole fun c hc g' hg' => ?_
  rcases List.mem_append.mp (hperm.subset hc) with hc | hc
  · rw [hnew c hc] at hg'
    exact (Option.some.inj hg').ge
  · exact (holder c hc g' hg').le

/-- The snapshot of a cycle is in the store as a whole, and is what is read back from there. -/
structure Stored (e : Engine) (c : Cycle σ) : Prop where
  chunksFailed : c.report.chunksFailed = 0
  restored : e.generation < UInt64.size → c.report.storedBytes < UInt64.size →
    ∃ r, restore c.store e.settings.ns e.settings.codec = .ok r ∧ r.generation = some c.report.generation ∧
      r.agents = c.fleet.registry.agents

/-- Once all names that the engine knows are deleted, only the obstructed places are taken. -/
theorem Tracks.taken_iff (h : Tracks ns s₀ names e s) {deletes : Batch σ String}
    (hdeletes : Batch.CalmSteps e.settings.effort (deleteCall ns) (Batch.deletionFault ns)
      (.start e.settings.effort s e.previous) deletes)
    (hdeleted : deletes.running = []) {n : String} (hn : IsChunkName n) :
    Taken ns deletes.store n ↔ Obstructed ns s₀ names n := by
  have hclears := hdeletes.steps.clears h.sound
  have haccounts := hdeletes.steps.accounts
  constructor
  · intro hleft
    obtain ⟨hbefore, hgone⟩ := hclears.taken n hleft
    refine (h.known n hn hbefore).resolve_left fun ⟨p, hp, hplace⟩ => ?_
    have hdone := haccounts.succeeded_or_failed hdeleted hp
    rw [hdeletes.failed_deletions h.sound, or_iff_left List.not_mem_nil] at hdone
    exact hgone p hdone ((h.onePlace p n).mpr hplace)
  · intro hobstructed
    obtain ⟨hbefore, hunknown⟩ := h.stays n hobstructed
    exact hclears.stays n hbefore fun p hp => mt (h.onePlace p n).mp (hunknown p hp)

theorem Tracks.calm (h : Tracks ns s₀ names e s) (hcycles : e.CalmCycles fleet s dispatcher now c) :
    (c.report.chunksFailed = 0 ↔ ∀ new ∈ e.chunksToStore fleet now, ¬Obstructed ns s₀ names new.name) ∧
      (c.report.chunksFailed = 0 → Stored e c) := by
  obtain rfl := h.isOf
  cases hcycles with
  | @of_steps deletes creates hdeletes hdeleted hcreates hcreated =>
      have hclears := hdeletes.steps.clears h.sound
      have hfills := hcreates.steps.fills hclears.sound Batch.creatable_chunksOf
      have haccounts := hcreates.steps.accounts
      obtain ⟨hfailed, hlistable⟩ :=
        hcreates.creations hclears.sound Batch.creatable_chunksOf nodup_names_chunksOf
      have hall : creates.failed = [] → creates.succeeded.Perm (e.chunksToStore fleet now) := fun hnil =>
        (Batch.succeeded_perm_of_failed hnil).trans (haccounts.finished_perm hcreated)
      have hzero : creates.failed.length = 0 ↔ creates.failed = [] := List.length_eq_zero_iff
      refine ⟨hzero.trans ⟨fun hnil new hnew hobstructed => ?_, fun hfree => ?_⟩,
        fun hnoloss => ⟨hnoloss, fun hg hsize => ?_⟩⟩
      · obtain ⟨hname, hfree⟩ := hfills.free new ((hall hnil).mem_iff.mpr hnew)
        exact hfree ((h.taken_iff hdeletes hdeleted hname).mpr hobstructed)
      · refine List.eq_nil_iff_forall_not_mem.mpr fun new hnew => ?_
        have hitem := haccounts.mem_of_finished (Batch.mem_failed.mp hnew)
        have hname := (Batch.creatable_chunksOf new hitem).2
        exact hfree new hitem ((h.taken_iff hdeletes hdeleted hname).mp (hfailed new hnew))
      · have hnew := hall (hzero.mp hnoloss)
        have hne : creates.succeeded ≠ [] := by
          intro hnil
          rw [hnil] at hnew
          exact e.settings.codec.compress_ne_nil (AgentMap.encode_ne_nil _)
            (chunksOf_eq_nil_iff.mp hnew.symm.eq_nil)
        obtain ⟨cs, hlist⟩ := hlistable hne
        have holder : ∀ c' ∈ contents e.settings.ns deletes.store, ∀ g', c'.partOf? = some g' →
            g' < e.generation := fun c' hc' => h.older c' (hclears.contents hc')
        have hread := ofChunks_of_fills hfills hnew holder hg hsize hlist
        exact ⟨_, restore_eq_ok.mpr ⟨cs, hlist, hread⟩, rfl, rfl⟩

end Engine

/-! ## Where places are obstructed -/

namespace MemoryStore

variable {ns : String} {s s' : MemoryStore}

/-- A store in memory may be told to fail, or to work again. -/
theorem samePlaces_of_chunks (hs : Filed ns s) (hchunks : s'.chunks = s.chunks) : SamePlaces ns s s' := by
  have hsame : s'.inNamespace ns = s.inNamespace ns := by rw [inNamespace, hchunks, inNamespace]
  have hsound : Filed ns s' := fun k c hk => hs k c (hsame ▸ hk)
  refine ⟨hsound, fun _ _ => Iff.rfl, ?_, fun n => ?_⟩
  · simp only [contents, hsame]
    exact .refl _
  · simp only [Taken, hsame]

/-- The store has not been told to fail. -/
def Works (s : MemoryStore) : Prop := s.isDown = false ∧ s.failCreates = 0 ∧ s.failDeletes = 0

theorem Works.create (h : Works s) (c : Chunk) : meetsFault (s.create c).1 = false ∧ Works (s.create c).2 := by
  simp only [MemoryStore.create]
  split
  · next hdown => simp [h.1] at hdown
  · split
    · next hfail => simp [h.2.1] at hfail
    · split <;> exact ⟨rfl, h⟩

theorem Works.delete (h : Works s) (ns name : String) :
    meetsFault (s.delete ns name).1 = false ∧ Works (s.delete ns name).2 := by
  simp only [MemoryStore.delete]
  split
  · next hdown => simp [h.1] at hdown
  · split
    · next hfail => simp [h.2.2] at hfail
    · split <;> exact ⟨rfl, h⟩

theorem calmCycles_of_works (h : Works s) (e : Engine) (fleet : Fleet) (dispatcher : Dispatcher)
    (now : Timestamp) : e.CalmCycles fleet s dispatcher now (e.cycle fleet s dispatcher now) := by
  refine Engine.calmCycles_cycle (fun s name hs => ?_) (fun s c hs => ?_) h fleet dispatcher now
  · rw [deleteCall_snd]
    exact hs.delete _ name
  · rw [createCall_snd]
    exact hs.create c

/-- In memory, whatever is in a namespace is listed under the name of its place. -/
theorem not_obstructed (hs : Filed ns s) {codec : Codec} {r : Restored} (hr : restore s ns codec = .ok r)
    (n : String) : ¬Obstructed ns s r.names n := by
  intro hobstructed
  obtain ⟨cs, hlist, rfl⟩ := restore_eq_ok.mp hr
  obtain ⟨c, hc⟩ := Option.ne_none_iff_exists'.mp hobstructed.taken
  have hlisted : c ∈ cs := (list_eq_ok.mp hlist).2 ▸ (KeyMap.mem_values _).mpr ⟨n, hc⟩
  exact hobstructed.unknown c.name (List.mem_map_of_mem hlisted) (hs n c hc)

end MemoryStore

namespace DirectoryStore

variable {ns : String} {s : DirectoryStore}

theorem sound_of_restore (hs : s.files.WellFormed) {codec : Codec} {r : Restored}
    (hr : restore s ns codec = .ok r) : Sound ns s := by
  obtain ⟨cs, hlist, -⟩ := restore_eq_ok.mp hr
  rcases list_spec hs with ⟨hreadable, -⟩ | ⟨-, e, hfail⟩
  · exact ⟨hs, hreadable⟩
  · cases hlist.symm.trans hfail

theorem not_obstructed_iff {names : List String} {n : String} (hn : IsChunkName n) : ¬Obstructed ns s names n ↔
    s.files.node? (s.place ns n) = none ∨ ∃ p ∈ names, s.place ns p = s.place ns n := by
  constructor
  · intro hnot
    by_cases htaken : Taken ns s n
    · by_contra hclear
      rw [not_or] at hclear
      exact hnot ⟨hn, htaken, fun p hp hplace => hclear.2 ⟨p, hp, hplace⟩⟩
    · exact .inl (not_not.mp htaken)
  · rintro (hfree | ⟨p, hp, hplace⟩) hobstructed
    · exact hobstructed.taken hfree
    · exact hobstructed.unknown p hp hplace

end DirectoryStore

namespace Engine

variable [PlacedStore σ]

/-- A cycle without failures of the store, in the life of an engine that went on after what it had read. In
the cycles before, the store may have failed in any way. -/
inductive Recovers (settings : SnapshotSettings) (codec : Codec) (s₀ : σ) (r : Restored) :
    Engine → Fleet → Timestamp → Cycle σ → Prop
  | of_life {cs : List (Cycle σ)} {e : Engine} {s : σ} {fleet : Fleet} {dispatcher : Dispatcher}
      {now : Timestamp} {c : Cycle σ} (hr : restore s₀ settings.ns codec = .ok r)
      (hlife : Life Nat.succ (SamePlaces settings.ns) (.resume settings r) s₀ cs e s)
      (hcalm : e.CalmCycles fleet s dispatcher now c) : Recovers settings codec s₀ r e fleet now c

/-- In memory, the first cycle that meets no failure of the store stores the snapshot as a whole, whatever
was in the namespace at the start. In a folder it does so if and only if no file is in the place of a new
chunk that was not listed then as the chunk of that place. -/
theorem stores_next_unless_obstructed {settings : SnapshotSettings} {codec : Codec} {r : Restored} {e : Engine}
    {fleet : Fleet} {now : Timestamp} :
    (∀ {s₀ : MemoryStore} {c : Cycle MemoryStore}, LawfulStore.Valid settings.ns s₀ →
      Recovers settings codec s₀ r e fleet now c → Stored e c) ∧
    ∀ {s₀ : DirectoryStore} {c : Cycle DirectoryStore}, s₀.files.WellFormed →
      Recovers settings codec s₀ r e fleet now c →
      (c.report.chunksFailed = 0 ↔ ∀ new ∈ e.chunksToStore fleet now,
        s₀.files.node? (s₀.place settings.ns new.name) = none ∨
          ∃ name ∈ r.names, s₀.place settings.ns name = s₀.place settings.ns new.name) ∧
      (c.report.chunksFailed = 0 → Stored e c) := by
  refine ⟨fun hs hrecovers => ?_, fun hs hrecovers => ?_⟩
  · cases hrecovers with
    | of_life hr hlife hcalm =>
        obtain ⟨hiff, hstored⟩ := (hlife.tracks hs hr).calm hcalm
        exact hstored (hiff.mpr fun new _ => MemoryStore.not_obstructed hs hr new.name)
  · cases hrecovers with
    | of_life hr hlife hcalm =>
        obtain ⟨hiff, hstored⟩ := (hlife.tracks (DirectoryStore.sound_of_restore hs hr) hr).calm hcalm
        refine ⟨hiff.trans (forall₂_congr fun new hnew => ?_), hstored⟩
        exact DirectoryStore.not_obstructed_iff (Batch.creatable_chunksOf new hnew).2

/-- Part of a generation is left, and an engine goes on after it. In memory its first deletion fails, then the
store is made to work again, and the second cycle is calm; in a folder the first one is. -/
theorem stores_next_unless_obstructed_remnant :
    let part : Chunk := .make "fleet" 4 0 2 [7]
    let memory : MemoryStore := { MemoryStore.empty.put part with failDeletes := 9 }
    let folder : DirectoryStore :=
      ⟨[], (FileTree.empty.put ["fleet"] .folder).put ["fleet", "4-0.json"] (.file part.encode)⟩
    let fleet : Fleet := ((default : Fleet).consume (.ofName "edge-1") .epoch).2
    let e : Engine := .resume ⟨"fleet", .none, 1000, ⟨1, 1, 0⟩, 60⟩ (.ofChunks .none [part])
    let c₁ := e.cycle fleet memory (.ofCapacity 1) .epoch
    let c₂ := c₁.engine.cycle fleet { c₁.store with failDeletes := 0 } (.ofCapacity 1) .epoch
    c₁.report.deletesFailed = 1 ∧ Stored c₁.engine c₂ ∧
      ∃ c, e.CalmCycles fleet folder (.ofCapacity 1) .epoch c ∧ Stored e c := by
  intro part memory folder fleet e c₁ c₂
  let settings : SnapshotSettings := ⟨"fleet", .none, 1000, ⟨1, 1, 0⟩, 60⟩
  let r : Restored := .ofChunks .none [part]
  have hmemory : restore memory settings.ns .none = .ok r := by decide +kernel
  have hfolder : restore folder settings.ns .none = .ok r := by decide +kernel
  have hempty : MemoryStore.Filed "fleet" .empty := MemoryStore.valid_empty
  have hvalid : LawfulStore.Valid settings.ns memory := hempty.put part
  have hwellFormed : folder.files.WellFormed :=
    (FileTree.WellFormed.empty.put (by decide) (by decide) (by decide)).put (by decide) (by decide) (by decide)
  have hfailed : c₁.report.deletesFailed = 1 := by decide +kernel
  have hworks : MemoryStore.Works { c₁.store with failDeletes := 0 } := by
    unfold MemoryStore.Works
    decide +kernel
  have hcalm : ∃ c, e.CalmCycles fleet folder (.ofCapacity 1) .epoch c :=
    ⟨_, .of_steps (.single (.attempt _ 0 (by decide +kernel))) (by decide +kernel)
      (.single (.attempt _ 0 (by decide +kernel))) (by decide +kernel)⟩
  have hfree : ∀ new ∈ e.chunksToStore fleet .epoch,
      folder.files.node? (folder.place settings.ns new.name) = none ∨
        ∃ name ∈ r.names, folder.place settings.ns name = folder.place settings.ns new.name := by
    decide +kernel
  have he : e = .resume settings r := rfl
  have hcycles₁ : e.Cycles fleet memory (.ofCapacity 1) .epoch c₁ := cycles_cycle ..
  have hcalm₂ : c₁.engine.CalmCycles fleet { c₁.store with failDeletes := 0 } (.ofCapacity 1) .epoch c₂ :=
    MemoryStore.calmCycles_of_works hworks ..
  -- From here on the cycles are known by these facts alone, so that no step runs them again.
  clear_value c₂ c₁ e r settings memory folder
  obtain ⟨c, hcalm⟩ := hcalm
  subst he
  have hlife₁ : Life Nat.succ (SamePlaces settings.ns) (.resume settings r) memory [c₁] c₁.engine c₁.store :=
    hcycles₁.numbered_eq rfl ▸ Life.begins.cycle hcycles₁
  have hmended : SamePlaces settings.ns c₁.store { c₁.store with failDeletes := 0 } :=
    MemoryStore.samePlaces_of_chunks (hlife₁.tracks hvalid hmemory).sound rfl
  have hsecond : Recovers settings .none memory r c₁.engine fleet .epoch c₂ :=
    .of_life hmemory (hlife₁.pause hmended) hcalm₂
  have hfirst : Recovers settings .none folder r (.resume settings r) fleet .epoch c :=
    .of_life hfolder .begins hcalm
  obtain ⟨hiff, hstored⟩ := stores_next_unless_obstructed.2 hwellFormed hfirst
  exact ⟨hfailed, stores_next_unless_obstructed.1 hvalid hsecond, c, hcalm, hstored (hiff.mpr hfree)⟩

/-- A file in the place of the first chunk of all holds no chunk. It is not listed, so the engine begins with
that very chunk: nothing fails in the store, but the snapshot is lost, and nothing is there to be read back. -/
theorem obstructed_snapshot_is_lost :
    let folder : DirectoryStore :=
      ⟨[], (FileTree.empty.put ["fleet"] .folder).put ["fleet", "0-0.json"] (.file (utf8 "broken"))⟩
    let fleet : Fleet := ((default : Fleet).consume (.ofName "edge-1") .epoch).2
    let e : Engine := .resume ⟨"fleet", .none, 1000, ⟨1, 1, 0⟩, 60⟩ ⟨∅, none, [], 0⟩
    folder.files.WellFormed ∧ restore folder "fleet" .none = .ok ⟨∅, none, [], 0⟩ ∧
      ∃ c, e.CalmCycles fleet folder (.ofCapacity 1) .epoch c ∧ c.report.chunksFailed = 1 ∧
        c.fleet.registry.agents.keys = ["edge-1"] ∧ restore c.store "fleet" .none = .ok ⟨∅, none, [], 0⟩ := by
  intro folder fleet e
  have hwellFormed : folder.files.WellFormed :=
    (FileTree.WellFormed.empty.put (by decide) (by decide) (by decide)).put (by decide) (by decide) (by decide)
  have hrestore : restore folder "fleet" .none = .ok ⟨∅, none, [], 0⟩ := by decide +kernel
  exact ⟨hwellFormed, hrestore, _,
    .of_steps .refl (by decide +kernel) (.single (.attempt _ 0 (by decide +kernel))) (by decide +kernel),
    by decide +kernel, by decide +kernel, by decide +kernel⟩

end Engine

end EdgeFleet
