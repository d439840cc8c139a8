import EdgeFleet.KeyMap.Counts
import EdgeFleet.Proofs.Fleet.Formats
import EdgeFleet.Proofs.Fleet.Restart
import EdgeFleet.Proofs.Snapshot.CrashSafety

/-! # What a sweep shows

All that a sweep hands out describes the registry that it leaves: the rows of the listing, the numbers, and
what is stored. The rows stay as they are until the next sweep.
-/

namespace EdgeFleet

namespace Registry

/-! ## Histograms -/

theorem mem_histogram {ns : List Nat} (hbound : ∀ m ∈ ns, m < 31) {m n : Nat} :
    (m, n) ∈ histogram ns ↔ 0 < n ∧ n = ns.count m := by
  simp only [histogram, List.mem_filterMap, List.mem_range]
  constructor
  · rintro ⟨m', -, h⟩
    split at h
    · cases h
    · cases h
      omega
  · rintro ⟨hpos, rfl⟩
    exact ⟨m, hbound m (List.count_pos_iff.mp hpos), if_neg hpos.ne'⟩

theorem map_fst_histogram (ns : List Nat) :
    (histogram ns).map (·.1) = (List.range 31).filter fun n => ns.count n ≠ 0 := by
  rw [histogram, List.map_filterMap, ← List.filterMap_eq_filter]
  refine List.filterMap_congr fun n _ => ?_
  by_cases h : ns.count n = 0 <;> simp [h, Option.guard]

/-- Every number below a bound is counted in one place. -/
theorem sum_count_range {ns : List Nat} {bound : Nat} (hbound : ∀ m ∈ ns, m < bound) :
    ((List.range bound).map ns.count).sum = ns.length := by
  have hsum : ∀ n, ((List.range n).map ns.count).sum = ∑ m ∈ Finset.range n, Multiset.count m ns := by
    intro n
    induction n with
    | zero => rfl
    | succ n ih => simp [List.range_succ, Finset.sum_range_succ, ih]
  rw [hsum, Multiset.sum_count_eq_card fun m hm => Finset.mem_range.mpr (hbound m hm), Multiset.coe_card]

theorem sum_histogram {ns : List Nat} (hbound : ∀ m ∈ ns, m < 31) :
    ((histogram ns).map (·.2)).sum = ns.length := by
  rw [← sum_count_range hbound, histogram]
  induction List.range 31 with
  | nil => rfl
  | cons n l ih =>
      rw [List.filterMap_cons, List.map_cons, List.sum_cons, ← ih]
      by_cases h : ns.count n = 0
      · rw [if_pos h, h, Nat.zero_add]
      · rw [if_neg h]
        rfl

/-! ## Numbers -/

/-- The agents that are in a state. -/
def agentsIn (r : Registry) (state : AgentState) : Set String := {agent | r.stateOf? agent = some state}

theorem countIn_eq_ncard (r : Registry) (state : AgentState) :
    countIn state r.agents.values = (r.agentsIn state).ncard := by
  rw [countIn, KeyMap.countP_values]
  congr 1
  ext agent
  simp [agentsIn, stateOf?, get?]

/-- Every agent is in one of the three states. -/
theorem countIn_add (es : List AgentEntry) :
    countIn .registering es + countIn .registered es + countIn .offline es = es.length := by
  induction es with
  | nil => rfl
  | cons e es ih =>
      rw [List.length_cons, ← ih]
      cases h : e.record.state <;> simp [countIn, h] <;> omega

/-- The agents whose silence falls into a bucket: so many whole minutes, the last one for all above. -/
def silentFor (r : Registry) (now : Timestamp) (m : Nat) : Set String :=
  {agent | ∃ e, r.get? agent = some e ∧ min 30 ((max 0 (now.since e.lastSeen)).toNat / 60000000000) = m}

theorem count_silenceMinutes (r : Registry) (now : Timestamp) (m : Nat) :
    (r.agents.values.map (silenceMinutes now)).count m = (r.silentFor now m).ncard := by
  rw [List.count, List.countP_map, KeyMap.countP_values]
  congr 1
  ext agent
  have htoNat : ∀ d : Int, (max 0 d).toNat = d.toNat := by omega
  simp [silentFor, get?, silenceMinutes, silence, Timestamp.clock_since, htoNat]

theorem silenceMinutes_lt (now : Timestamp) (es : List AgentEntry) :
    ∀ m ∈ es.map (silenceMinutes now), m < 31 := by
  intro m hm
  obtain ⟨e, -, rfl⟩ := List.mem_map.mp hm
  exact Nat.lt_succ_of_le (Nat.min_le_left ..)

/-! ## What a sweep hands out -/

/-- What a sweep of `r` at `now` hands out, against the registry that it leaves. -/
structure Shows (r : Registry) (now : Timestamp) (s : Sweep) : Prop where
  names : s.registry.agents.keys = r.agents.keys
  /-- Of no entry anything but the state changes. -/
  unchanged : ∀ agent e, r.get? agent = some e →
    ∃ state, s.registry.get? agent = some { e with record := { e.record with state } }
  settled : ∀ agent, s.registry.stateOf? agent ≠ some .registering
  /-- Every agent has one row and every row is one of an agent. -/
  rows : s.rows = s.registry.agents.map fun agent e => ⟨agent, e.record.state, now⟩
  /-- The rows are listed by name. -/
  listing : s.rows.rows = s.registry.agents.toList.map fun e => ⟨e.1, e.2.record.state, now⟩
  registering : s.stats.registering = 0
  registered : s.stats.registered = (s.registry.agentsIn .registered).ncard
  offline : s.stats.offline = (s.registry.agentsIn .offline).ncard
  total : s.stats.total = s.registry.agents.size
  /-- No bucket is listed twice, and none without an agent. -/
  buckets : (s.stats.silence.map (·.1)).Nodup
  silence : ∀ m n, (m, n) ∈ s.stats.silence ↔ 0 < n ∧ n = (s.registry.silentFor now m).ncard
  /-- No agent is missing in the buckets. -/
  everyone : (s.stats.silence.map (·.2)).sum = s.registry.agents.size
  /-- What is to be stored is read as the entries, in whatever order it lists them. -/
  payload : AgentMap.decode? s.registry.agents.encode = some s.registry.agents
  reordered : ∀ es, es.Perm s.registry.agents.toList →
    AgentMap.decode? (AgentMap.encodeInOrder es) = some s.registry.agents

/-- A table whose rows show their keys lists them in key order. -/
theorem rows_map (m : AgentMap) (now : Timestamp) :
    NodeTable.rows (m.map fun agent e => ⟨agent, e.record.state, now⟩) =
      m.toList.map fun e => ⟨e.1, e.2.record.state, now⟩ := by
  have hvalues : (m.map fun agent e => (⟨agent, e.record.state, now⟩ : NodeRow)).values =
      m.toList.map fun e => ⟨e.1, e.2.record.state, now⟩ := List.map_map ..
  rw [NodeTable.rows, hvalues]
  refine List.mergeSort_of_pairwise (List.pairwise_map.mpr ?_)
  exact m.ascending.imp fun h => decide_eq_true (String.not_lt.mp (String.lt_asymm h))

theorem Filed.rows_sweepAfter {r : Registry} (hr : r.Filed) (limit : Nat) (now : Timestamp) :
    (r.sweepAfter limit now).rows =
      (r.sweepAfter limit now).registry.agents.map fun agent e => ⟨agent, e.record.state, now⟩ := by
  have hfiled := hr.sweepAfter limit now
  rw [← KeyMap.ofList_toList (KeyMap.map _ _)]
  refine congrArg KeyMap.ofList ?_
  rw [KeyMap.toList, KeyMap.map, KeyMap.values, List.map_map]
  refine List.map_congr_left fun e he => ?_
  have hname : e.2.record.name = e.1 := hfiled e.1 e.2 ((KeyMap.mem_toList _).mp he)
  simp [NodeRow.ofEntry, hname]

theorem Filed.shows {r : Registry} (hr : r.Filed) (limit : Nat) (now : Timestamp) :
    r.Shows now (r.sweepAfter limit now) where
  names := r.agents.keys_map _
  unchanged agent e he := ⟨sweptState limit now e, by rw [get?_sweepAfter, he]; rfl⟩
  settled := (hr.sweepSpec limit now).settled
  rows := hr.rows_sweepAfter limit now
  listing := by rw [hr.rows_sweepAfter, rows_map]
  registering := by
    refine (countIn_eq_ncard _ _).trans ?_
    have hnone : (r.sweepAfter limit now).registry.agentsIn .registering = ∅ :=
      Set.eq_empty_of_forall_notMem (hr.sweepSpec limit now).settled
    exact hnone ▸ Set.ncard_empty String
  registered := countIn_eq_ncard ..
  offline := countIn_eq_ncard ..
  total := (countIn_add _).trans (List.length_map _)
  buckets := by
    refine (map_fst_histogram _).symm ▸ List.nodup_range.filter _
  silence m n := by
    rw [← count_silenceMinutes]
    exact mem_histogram (silenceMinutes_lt now _)
  everyone := by
    refine (sum_histogram (silenceMinutes_lt now _)).trans ?_
    rw [List.length_map]
    exact List.length_map _
  payload := AgentMap.decode?_encode _
  reordered _ := AgentMap.decode?_encodeInOrder

end Registry

/-! ## What is stored -/

namespace History

variable {σ : Type} [ChunkStore σ] [LawfulStore σ] {ns : String} {codec : Codec}

/-- Chunks of one generation that are held are read as the agents of one of the cycles. -/
theorem Sound.exists_cycle {h : History σ} (hsound : Sound ns codec h) {cs : List Chunk}
    (hheld : ∀ c ∈ cs, LawfulStore.Holds ns h.store c) {g : Nat} {m : AgentMap}
    (hread : Restored.readAgents? codec (Restored.chunksIn cs g) = some m) :
    ∃ log ∈ h.cycles, m = log.agents := by
  have hattributed : ∀ c ∈ Restored.chunksIn cs g, ∃ i log, Attributed ns codec h.cycles g c i log := by
    intro c hc
    obtain ⟨hmem, hpart⟩ := Restored.mem_chunksIn.mp hc
    exact hsound.attributed c (hheld c hmem) g hpart
  have hne : Restored.chunksIn cs g ≠ [] := by
    intro hnil
    rw [hnil] at hread
    cases hread
  obtain ⟨c, hc⟩ := List.exists_mem_of_ne_nil _ hne
  obtain ⟨i, log, hlog⟩ := hattributed c hc
  have hchunks : ∀ c' ∈ Restored.chunksIn cs g, c' ∈ log.chunks ns codec := by
    intro c' hc'
    obtain ⟨i', log', hlog'⟩ := hattributed c' hc'
    obtain ⟨-, rfl⟩ := hlog.unique hlog'
    exact hlog'.chunk
  exact ⟨log, List.mem_of_getElem? hlog.cycle, Restored.eq_of_readAgents? hchunks hread⟩

end History

/-! ## Cycles -/

namespace Fleet

theorem nodes_afterAll (f : Fleet) {es : List Event} (hes : ∀ limit now, .sweep limit now ∉ es) :
    (f.afterAll es).nodes = f.nodes := by
  induction es generalizing f with
  | nil => rfl
  | cons e es ih =>
      refine (ih (f.after e) fun limit now hmem => hes limit now (List.mem_cons_of_mem _ hmem)).trans ?_
      rw [nodes_after]
      cases e with
      | sweep limit now => exact absurd List.mem_cons_self (hes limit now)
      | _ => rfl

/-- Whatever was reported and swept before: what a sweep hands out describes the registry that it leaves.
After a cycle this is what the listing shows, until the next sweep. In a store where every cycle of every
controller has stored what a sweep left, and however they ended, no snapshot holds an agent that is
registering. -/
theorem sweeps_show_registry {σ : Type} [ChunkStore σ] [LawfulStore σ] :
    (∀ es limit now, (Registry.empty.afterAll es).Shows now ((Registry.empty.afterAll es).sweepAfter limit now)) ∧
      (∀ ds f, Reached ds f → ∀ (e : Engine) (store : σ) d now c, e.Cycles f store d now c →
        let s := f.registry.sweep e.settings.heartbeatTimeout now
        f.registry.Shows now s ∧ c.fleet.registry = s.registry ∧ c.report.stats = s.stats ∧
          ∀ es, (∀ limit time, .sweep limit time ∉ es) → (c.fleet.afterAll es).nodes = s.rows) ∧
      ∀ ns codec (store : σ) h, LawfulStore.Valid ns store → (∀ c, ¬LawfulStore.Holds ns store c) →
        History.Steps ns codec ⟨.down store, []⟩ h →
        (∀ log ∈ h.cycles, ∃ (r : Registry) (limit : Nat) (now : Timestamp),
          log.agents = (r.sweepAfter limit now).registry.agents) →
        ∀ cs, (∀ c ∈ cs, LawfulStore.Holds ns h.store c) → ∀ g m,
          Restored.readAgents? codec (Restored.chunksIn cs g) = some m →
            ∀ agent e, m.get? agent = some e → e.record.state ≠ .registering := by
  refine ⟨fun es limit now => (Registry.filed_empty.afterAll es).shows limit now, ?_, ?_⟩
  · intro ds f hreached e store d now c hcycles s
    have hfleet := cycles_fleet hcycles
    refine ⟨hreached.coherent.filed.shows _ now, by rw [hfleet]; rfl, by cases hcycles; rfl, fun es hes => ?_⟩
    rw [nodes_afterAll _ hes, hfleet]
    rfl
  · intro ns codec store h hvalid hempty hsteps hswept cs hheld g m hread agent e he
    have hsound : History.Sound ns codec h := (History.Sound.empty hvalid hempty).steps hsteps
    obtain ⟨log, hlog, rfl⟩ := hsound.exists_cycle hheld hread
    obtain ⟨r, limit, now, hagents⟩ := hswept log hlog
    have hentry : (r.sweepAfter limit now).registry.get? agent = some e := by
      rw [Registry.get?, ← hagents, he]
    rw [Registry.get?_sweepAfter, Option.map_eq_some_iff] at hentry
    obtain ⟨before, -, rfl⟩ := hentry
    exact Registry.sweptState_ne_registering limit now before

/-- One agent has been silent for an hour and another one has just come. The cycle shows and stores both, and
a third one that reports later is not shown. -/
theorem sweeps_show_registry_hour :
    let hour : Timestamp := ⟨1970, 1, 1, 1, 0, 0, 0, 0, by decide, by decide⟩
    let f := (ofDefinitions [] .epoch).afterAll
      [.consume (.ofName "edge-1") .epoch, .sweep 60 .epoch, .consume (.ofName "edge-2") hour]
    let e : Engine := .resume ⟨"fleet", .none, 1000, ⟨2, 1, 0⟩, 60⟩ (.ofChunks .none [])
    let c := e.cycle f MemoryStore.empty (.ofCapacity 4) hour
    let cs := e.chunksToStore f hour
    (f.registry.sweep 60 hour).rows.rows = [⟨"edge-1", .offline, hour⟩, ⟨"edge-2", .registered, hour⟩] ∧
      c.report.stats = ⟨0, 1, 1, [(0, 1), (30, 1)]⟩ ∧
      (c.fleet.after (.consume (.ofName "edge-3") hour)).nodes = (f.registry.sweep 60 hour).rows ∧
      ∃ m, Restored.readAgents? .none (Restored.chunksIn cs 0) = some m ∧ m.size = 2 ∧
        ∀ agent e, m.get? agent = some e → e.record.state ≠ .registering := by
  intro hour f e c cs
  have hreached : Reached [(.ofName "edge-1", .epoch), (.ofName "edge-2", hour)] f :=
    (((Reached.start [] .epoch).call (.consume (.ofName "edge-1") .epoch)).call (.sweep 60 .epoch)).call
      (.consume (.ofName "edge-2") hour)
  have hcycles : e.Cycles f MemoryStore.empty (.ofCapacity 4) hour c := Engine.cycles_cycle ..
  obtain ⟨-, hcycle, hstored⟩ := sweeps_show_registry (σ := MemoryStore)
  obtain ⟨hshows, -, hstats, hnodes⟩ := hcycle _ f hreached e MemoryStore.empty _ hour c hcycles
  have hentries : (f.registry.sweep 60 hour).registry.agents.toList.map
      (fun e => (⟨e.1, e.2.record.state, hour⟩ : NodeRow)) =
        [⟨"edge-1", .offline, hour⟩, ⟨"edge-2", .registered, hour⟩] := by decide +kernel
  refine ⟨hshows.listing.trans hentries, hstats.trans (by decide +kernel),
    hnodes [.consume (.ofName "edge-3") hour] (by simp), ?_⟩
  -- The cycle is the whole history of the store.
  have hstart : History.Step "fleet" .none ⟨.down MemoryStore.empty, []⟩ ⟨.idle e MemoryStore.empty, []⟩ :=
    .start rfl rfl (by decide +kernel)
  have hns : e.settings.ns = "fleet" := rfl
  have hcodec : e.settings.codec = .none := rfl
  obtain ⟨log, -, hagents, hsteps⟩ := History.steps_cycles hns hcodec hcycles []
  have hlist : ChunkStore.list c.store "fleet" = .ok cs := by decide +kernel
  have hheld : ∀ c' ∈ cs, LawfulStore.Holds "fleet" c.store c' := fun c' hc' =>
    (LawfulStore.mem_list ((History.Sound.empty MemoryStore.valid_empty MemoryStore.not_holds_empty).steps
      (.head hstart hsteps)).valid hlist).mp hc'
  have hpart : cs.filter (fun c' => c'.partOf? = some 0) = cs := by decide +kernel
  have hchunks : Restored.chunksIn cs 0 = cs := by
    rw [Restored.chunksIn, hpart, List.mergeSort_of_pairwise (by decide +kernel)]
  have hread : Restored.readAgents? .none (Restored.chunksIn cs 0) = some c.fleet.registry.agents := by
    rw [hchunks]
    exact Restored.readAgents?_of_isComplete (fun c' hc' => hc') (by decide +kernel)
  refine ⟨_, hread, by decide +kernel, ?_⟩
  refine hstored "fleet" .none MemoryStore.empty _ MemoryStore.valid_empty MemoryStore.not_holds_empty
    (.head hstart hsteps) (fun log' hlog' => ?_) cs hheld 0 _ hread
  cases List.mem_singleton.mp hlog'
  rw [cycles_fleet hcycles] at hagents
  exact ⟨f.registry, _, hour, hagents⟩

end Fleet

end EdgeFleet
