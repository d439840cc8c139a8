import EdgeFleet.Proofs.Fleet.Lifecycle
import EdgeFleet.Proofs.Snapshot.Cycle
import EdgeFleet.Proofs.Workloads.Selection

/-! # Runs of a fleet

The calls that a fleet takes, what they answer, and the states that it reaches. In each of them the
filter, the observed workloads and the desired ones follow from the registry and the definitions.
-/

namespace EdgeFleet

namespace Desired

/-- The labels that are known of the agents. -/
def labels (d : Desired) : KeyMap (KeyMap String) := d.agents.map fun _ a => a.labels

theorem get?_labels (d : Desired) (agent : String) :
    d.labels.get? agent = (d.agents.get? agent).map (·.labels) :=
  d.agents.get?_map ..

theorem keys_labels (d : Desired) : d.labels.keys = d.agents.keys := d.agents.keys_map _

theorem labels_enroll {d : Desired} (h : d.Consistent) (agent : String) (given : KeyMap String) :
    (d.enroll agent given).2.labels = d.labels.insert agent given := by
  rw [enroll_snd h, labels, KeyMap.map_insert]
  rfl

theorem labels_define {d : Desired} (h : d.Consistent) (w : WorkloadDefinition) (now : Timestamp) :
    (d.define w now).2.labels = d.labels := by
  rw [labels, define_agents h, KeyMap.map_map]
  rfl

theorem labels_retract {d d' : Desired} {ns name : String} {now : Timestamp} {out : List Outbound}
    (hd : d.retract ns name now = some (out, d')) : d'.labels = d.labels := by
  obtain ⟨key, -, -, hagents⟩ := retract_spec hd
  rw [labels, hagents, KeyMap.map_map]
  rfl

end Desired

namespace Fleet

/-! ## Calls -/

inductive Event where
  | consume (h : Heartbeat) (now : Timestamp)
  | ingest (payload : Bytes) (now : Timestamp)
  /-- The limit of silence is in nanoseconds. -/
  | sweep (limit : Nat) (now : Timestamp)
  | define (w : WorkloadDefinition) (now : Timestamp)
  | retract (ns name : String) (now : Timestamp)

/-- What a call answers. -/
inductive Answer where
  | consumed (outcome : Ingest)
  | ingested (outcome : Option (String × Ingest))
  | swept (sweep : Sweep)
  | defined (out : List Outbound)
  /-- Nothing when there is no such definition. -/
  | retracted (out : Option (List Outbound))

def call (f : Fleet) : Event → Answer × Fleet
  | .consume h now =>
    let (outcome, f) := f.consume h now
    (.consumed outcome, f)
  | .ingest payload now =>
    let (outcome, f) := f.ingest payload now
    (.ingested outcome, f)
  | .sweep limit now =>
    let (sweep, f) := f.sweepAfter limit now
    (.swept sweep, f)
  | .define w now =>
    let (out, desired) := f.desired.define w now
    (.defined out, { f with desired })
  | .retract ns name now =>
    match f.desired.retract ns name now with
    | none => (.retracted none, f)
    | some (out, desired) => (.retracted (some out), { f with desired })

def after (f : Fleet) (e : Event) : Fleet := (f.call e).2

def afterAll (f : Fleet) (es : List Event) : Fleet := es.foldl after f

/-- What the calls of a run answer, one after the other. -/
def answers : Fleet → List Event → List Answer
  | _, [] => []
  | f, e :: es => (f.call e).1 :: answers (f.after e) es

/-! ## Reached states -/

/-- A report and when it was delivered. -/
abbrev Delivery := Heartbeat × Timestamp

def Event.delivery? : Event → Option Delivery
  | .consume h now => some (h, now)
  | .ingest payload now => (Heartbeat.decode? payload).map (·, now)
  | .sweep _ _ | .define _ _ | .retract _ _ _ => none

/-- The fleets that begin with some definitions and no agent, with the reports delivered to them so far.
Besides taking calls a fleet may go through snapshot cycles, whatever the store does, and it may be built
anew from its entries, with other definitions. -/
inductive Reached : List Delivery → Fleet → Prop
  | start (ws : List WorkloadDefinition) (now : Timestamp) : Reached [] (ofDefinitions ws now)
  | call {ds f} (h : Reached ds f) (e : Event) : Reached (ds ++ e.delivery?.toList) (f.after e)
  | cycle {ds f} (h : Reached ds f) {σ : Type} [ChunkStore σ] {engine : Engine} {store : σ}
      {dispatcher : Dispatcher} {now : Timestamp} {c : Cycle σ}
      (hcycles : engine.Cycles f store dispatcher now c) : Reached ds c.fleet
  | restore {ds f} (h : Reached ds f) (ws : List WorkloadDefinition) (now : Timestamp) :
      Reached ds (.restore f.registry.agents (.ofDefinitions ws now))

/-! ## Steps -/

/-- Fleets that differ at most in the rows of the listing and in what was counted. -/
structure SameStores (f g : Fleet) : Prop where
  registry : f.registry = g.registry
  filter : f.filter = g.filter
  observed : f.observed = g.observed
  desired : f.desired = g.desired

theorem sameStores_countReceived (f : Fleet) : f.SameStores f.countReceived := ⟨rfl, rfl, rfl, rfl⟩

theorem judge_of_accepted {f : Fleet} {h : Heartbeat}
    (haccepted : Filter.judge (f.filter.get? h.name) (.ofHeartbeat h) = .accepted) (now : Timestamp) :
    f.judge h now = Fleet.absorb { f with
      filter := f.filter.seed h.name (.ofHeartbeat h)
      stats := { f.stats with accepted := f.stats.accepted + 1 } } h now := by
  rw [Filter.get?] at haccepted
  rw [judge, Filter.decide, haccepted]

theorem judge_of_stale {f : Fleet} {h : Heartbeat}
    (hstale : Filter.judge (f.filter.get? h.name) (.ofHeartbeat h) ≠ .accepted) (now : Timestamp) :
    f.judge h now = (.rejected (Filter.judge (f.filter.get? h.name) (.ofHeartbeat h)),
      { f with stats := { f.stats with rejected := f.stats.rejected + 1 } }) := by
  rw [Filter.get?] at hstale ⊢
  rw [judge, Filter.decide]
  cases hjudge : Filter.judge (f.filter.stamps.get? h.name) (.ofHeartbeat h) with
  | accepted => exact absurd hjudge hstale
  | staleSeq => rfl
  | staleTimestamp => rfl

/-- The registry takes in the reports that pass, and no others. -/
theorem judge_registry (f : Fleet) (h : Heartbeat) (now : Timestamp) :
    (f.judge h now).2.registry =
      if Filter.judge (f.filter.get? h.name) (.ofHeartbeat h) = .accepted then (f.registry.receive h now).2
      else f.registry := by
  split
  · next haccepted =>
    rw [judge_of_accepted haccepted]
    rfl
  · next hstale => rw [judge_of_stale hstale]

theorem cycles_fleet {σ : Type} [ChunkStore σ] {engine : Engine} {f : Fleet} {store : σ}
    {dispatcher : Dispatcher} {now : Timestamp} {c : Cycle σ}
    (hcycles : engine.Cycles f store dispatcher now c) :
    c.fleet = f.after (.sweep (engine.settings.heartbeatTimeout * 1000000000) now) := by
  cases hcycles
  rfl

/-! ## What follows from the registry -/

/-- The filter, the observed workloads and the labels are those of the reports in the registry, and what
is desired follows from the labels and the definitions. -/
structure Coherent (f : Fleet) : Prop where
  filed : f.registry.Filed
  filter : f.filter.stamps = f.registry.agents.map fun _ e => .ofHeartbeat e.record
  observed : f.observed.agents = f.registry.agents.map fun _ e => Observed.byKey e.record.pods
  desired : f.desired.Consistent
  labels : f.desired.labels = f.registry.agents.map fun _ e => e.record.labels

namespace Coherent

theorem congr {f g : Fleet} (h : f.Coherent) (hsame : f.SameStores g) : g.Coherent := by
  obtain ⟨hregistry, hfilter, hobserved, hdesired⟩ := hsame
  refine ⟨hregistry ▸ h.filed, ?_, ?_, hdesired ▸ h.desired, ?_⟩
  · rw [← hfilter, ← hregistry, h.filter]
  · rw [← hobserved, ← hregistry, h.observed]
  · rw [← hdesired, ← hregistry, h.labels]

theorem get?_filter {f : Fleet} (h : f.Coherent) (agent : String) :
    f.filter.get? agent = (f.registry.get? agent).map fun e => .ofHeartbeat e.record := by
  rw [Filter.get?, h.filter, KeyMap.get?_map]
  rfl

theorem start {d : Desired} (hd : d.Consistent) (hnone : d.agents = ∅) : (Fleet.start d).Coherent where
  filed := Registry.filed_empty
  filter := rfl
  observed := rfl
  desired := hd
  labels := by
    rw [Fleet.start, Desired.labels, hnone]
    rfl

/-- A report that passes is noted everywhere. -/
theorem absorb {f : Fleet} (hf : f.Coherent) (h : Heartbeat) (now : Timestamp)
    {stats : IngestStats} :
    (Fleet.absorb { f with filter := f.filter.seed h.name (.ofHeartbeat h), stats } h now).2.Coherent where
  filed := hf.filed.receive h now
  filter := by
    change f.filter.stamps.insert h.name (.ofHeartbeat h) = KeyMap.map _ (KeyMap.insert _ _ _)
    rw [KeyMap.map_insert, ← hf.filter]
    rfl
  observed := by
    change f.observed.agents.insert h.name (Observed.byKey h.pods) = KeyMap.map _ (KeyMap.insert _ _ _)
    rw [KeyMap.map_insert, ← hf.observed]
  desired := hf.desired.enroll h.name h.labels
  labels := by
    change (f.desired.enroll h.name h.labels).2.labels = KeyMap.map _ (KeyMap.insert _ _ _)
    rw [Desired.labels_enroll hf.desired, KeyMap.map_insert, ← hf.labels]

theorem judge {f : Fleet} (hf : f.Coherent) (h : Heartbeat) (now : Timestamp) :
    (f.judge h now).2.Coherent := by
  by_cases haccepted : Filter.judge (f.filter.get? h.name) (.ofHeartbeat h) = .accepted
  · rw [judge_of_accepted haccepted]
    exact hf.absorb h now
  · rw [judge_of_stale haccepted]
    exact hf.congr ⟨rfl, rfl, rfl, rfl⟩

/-- A sweep changes nothing in the reports but their states. -/
theorem sweepAfter {f : Fleet} (hf : f.Coherent) (limit : Nat) (now : Timestamp) :
    (f.sweepAfter limit now).2.Coherent := by
  have hagents : (f.sweepAfter limit now).2.registry.agents =
      f.registry.agents.map fun _ e => Registry.sweepEntry limit now e := rfl
  refine ⟨hf.filed.sweepAfter limit now, ?_, ?_, hf.desired, ?_⟩
  · rw [hagents, KeyMap.map_map]
    exact hf.filter
  · rw [hagents, KeyMap.map_map]
    exact hf.observed
  · rw [hagents, KeyMap.map_map]
    exact hf.labels

theorem withDesired {f : Fleet} (hf : f.Coherent) {d : Desired} (hd : d.Consistent)
    (hlabels : d.labels = f.desired.labels) : Coherent { f with desired := d } :=
  ⟨hf.filed, hf.filter, hf.observed, hd, hlabels.trans hf.labels⟩

theorem after {f : Fleet} (hf : f.Coherent) (e : Event) : (f.after e).Coherent := by
  have hcounted : f.countReceived.Coherent := hf.congr f.sameStores_countReceived
  cases e with
  | consume h now => exact hcounted.judge h now
  | ingest payload now =>
      simp only [Fleet.after, Fleet.call, Fleet.ingest]
      cases Heartbeat.decode? payload with
      | none => exact hcounted.congr ⟨rfl, rfl, rfl, rfl⟩
      | some h => exact hcounted.judge h now
  | sweep limit now => exact hf.sweepAfter limit now
  | define w now =>
      exact hf.withDesired (hf.desired.define w now) (Desired.labels_define hf.desired w now)
  | retract ns name now =>
      rw [Fleet.after, Fleet.call]
      cases hd : f.desired.retract ns name now with
      | none => exact hf
      | some r => exact hf.withDesired (hf.desired.retract hd) (Desired.labels_retract hd)

end Coherent

end Fleet

/-! ## Building a fleet anew -/

namespace Desired

/-- Enrolling the agents of a registry one after the other makes their labels known. -/
theorem enrollAll_spec {d : Desired} (h : d.Consistent) (es : List (String × AgentEntry)) :
    let d' := es.foldl (fun d e => (d.enroll e.1 e.2.record.labels).2) d
    d'.Consistent ∧ d'.definitions = d.definitions ∧
      d'.labels = es.foldl (fun m e => m.insert e.1 e.2.record.labels) d.labels := by
  induction es generalizing d with
  | nil => exact ⟨h, rfl, rfl⟩
  | cons e es ih =>
      obtain ⟨hconsistent, hdefs, hlabels⟩ := ih (h.enroll e.1 e.2.record.labels)
      refine ⟨hconsistent, hdefs.trans ?_, hlabels.trans ?_⟩
      · rw [enroll_snd h]
      · rw [labels_enroll h, List.foldl_cons]

theorem labels_of_agents {d : Desired} (h : d.agents = ∅) : d.labels = ∅ := by
  rw [labels, h]
  rfl

theorem ofDefinitions_agents (ws : List WorkloadDefinition) (now : Timestamp) :
    (ofDefinitions ws now).agents = ∅ :=
  KeyMap.ext (labels_ofDefinitions ws now)

end Desired

namespace Fleet

/-- What is desired of the agents in a registry. -/
theorem restore_desired_spec {d : Desired} (hd : d.Consistent) (hnone : d.agents = ∅) (agents : AgentMap) :
    (restore agents d).desired.Consistent ∧ (restore agents d).desired.definitions = d.definitions ∧
      (restore agents d).desired.labels = agents.map fun _ e => e.record.labels := by
  obtain ⟨hconsistent, hdefs, hlabels⟩ := Desired.enrollAll_spec hd agents.toList
  refine ⟨hconsistent, hdefs, hlabels.trans ?_⟩
  rw [Desired.labels_of_agents hnone]
  exact agents.foldl_insert_toList fun _ e => e.record.labels

theorem Coherent.restore {f : Fleet} (hf : f.Coherent) {d : Desired} (hd : d.Consistent)
    (hnone : d.agents = ∅) : (restore f.registry.agents d).Coherent := by
  obtain ⟨hconsistent, -, hlabels⟩ := restore_desired_spec hd hnone f.registry.agents
  exact ⟨hf.filed, rfl, rfl, hconsistent, hlabels⟩

theorem Reached.coherent {ds : List Delivery} {f : Fleet} (h : Reached ds f) : f.Coherent := by
  induction h with
  | start ws now =>
      exact .start (Desired.consistent_ofDefinitions ws now) (Desired.ofDefinitions_agents ws now)
  | call _ e ih => exact ih.after e
  | cycle _ hcycles ih =>
      rw [cycles_fleet hcycles]
      exact ih.after _
  | restore _ ws now ih =>
      exact ih.restore (Desired.consistent_ofDefinitions ws now) (Desired.ofDefinitions_agents ws now)

end Fleet

end EdgeFleet
