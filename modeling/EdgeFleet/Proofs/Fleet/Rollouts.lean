import EdgeFleet.Api.Router
import EdgeFleet.KeyMap.Counts
import EdgeFleet.Proofs.Fleet.Agreement

/-! # How far the fleet has come

What is told of each definition is counted in what is desired and in what is observed. Both are kept up to
date in their own ways, and yet the numbers are those of the reports that were accepted last.
-/

namespace EdgeFleet

/-! ## What a report says of a definition -/

namespace WorkloadDefinition

variable (w : WorkloadDefinition)

/-- The labels satisfy its selector. -/
def IsMeantFor (labels : KeyMap String) : Prop :=
  ∀ k v, w.spec.nodeSelector.get? k = some v → labels.get? k = some v

/-- Some workload of its key is reported. -/
def IsListedIn (pods : List WorkloadSummary) : Prop := ∃ p ∈ pods, p.key = w.key

/-- The last workload of its key that is reported has the hash of its specification and is running. -/
def IsReadyIn (pods : List WorkloadSummary) : Prop :=
  ∃ p, (pods.reverse.find? fun p => p.key = w.key) = some p ∧ p.hash = w.spec.hash ∧ p.phase = some .running

end WorkloadDefinition

namespace Fleet

/-! ## Accepted reports -/

/-- A call answers that it has accepted a report. -/
def Answer.isAccepted : Answer → Bool
  | .consumed (.accepted ..) | .ingested (some (_, .accepted ..)) => true
  | _ => false

/-- The report that comes with a call, if the call accepts it. -/
def acceptedBy? (f : Fleet) (e : Event) : Option Heartbeat :=
  if (f.call e).1.isAccepted then e.delivery?.map (·.1) else none

/-- The reports that are accepted in a run, one after the other. -/
def accepted : Fleet → List Event → List Heartbeat
  | _, [] => []
  | f, e :: es => (f.acceptedBy? e).toList ++ accepted (f.after e) es

def lastOf? (agent : String) (hs : List Heartbeat) : Option Heartbeat :=
  hs.reverse.find? fun h => h.name = agent

theorem lastOf?_append (agent : String) (hs : List Heartbeat) (h : Heartbeat) :
    lastOf? agent (hs ++ [h]) = if h.name = agent then some h else lastOf? agent hs := by
  by_cases hname : h.name = agent <;> simp [lastOf?, hname]

/-- The agents whose last accepted report satisfies `p`. -/
def agentsWhose (p : Heartbeat → Prop) (hs : List Heartbeat) : Set String :=
  {agent | ∃ h, lastOf? agent hs = some h ∧ p h}

/-! ## The registry holds them -/

/-- The registry holds the last accepted report of each agent, in a state of its own. -/
def HoldsLast (hs : List Heartbeat) (r : Registry) : Prop :=
  ∀ agent, (r.get? agent).map (fun e => { e.record with state := .registering }) =
    (lastOf? agent hs).map fun h => { h with state := .registering }

theorem HoldsLast.receive {hs : List Heartbeat} {r : Registry} (h : HoldsLast hs r) (report : Heartbeat)
    (now : Timestamp) : HoldsLast (hs ++ [report]) (r.receive report now).2 := by
  intro agent
  rw [Registry.get?_receive, lastOf?_append]
  by_cases hname : agent = report.name
  · simp [hname]
  · simpa [hname, Ne.symm hname] using h agent

theorem HoldsLast.sweepAfter {hs : List Heartbeat} {r : Registry} (h : HoldsLast hs r) (limit : Nat)
    (now : Timestamp) : HoldsLast hs (r.sweepAfter limit now).registry := by
  intro agent
  rw [Registry.get?_sweepAfter, Option.map_map, ← h agent]
  rfl

theorem judge_cases (f : Fleet) (h : Heartbeat) (now : Timestamp) :
    (∃ arrival commands, (f.judge h now).1 = .accepted arrival commands ∧
        (f.judge h now).2.registry = (f.registry.receive h now).2) ∨
      ∃ decision, (f.judge h now).1 = .rejected decision ∧ (f.judge h now).2.registry = f.registry := by
  by_cases haccepted : Filter.judge (f.filter.get? h.name) (.ofHeartbeat h) = .accepted
  · rw [judge_of_accepted haccepted]
    exact .inl ⟨_, _, rfl, rfl⟩
  · rw [judge_of_stale haccepted]
    exact .inr ⟨_, rfl, rfl⟩

/-- The registry takes in the report that a call accepts. Otherwise nothing changes in it but, by a sweep, the
states. -/
theorem registry_after_cases (f : Fleet) (e : Event) :
    (∃ report now, f.acceptedBy? e = some report ∧ (f.after e).registry = (f.registry.receive report now).2) ∨
      f.acceptedBy? e = none ∧ ((f.after e).registry = f.registry ∨
        ∃ limit now, (f.after e).registry = (f.registry.sweepAfter limit now).registry) := by
  cases e with
  | consume report now =>
      have hcall : f.call (.consume report now) =
          (.consumed (f.countReceived.judge report now).1, (f.countReceived.judge report now).2) := rfl
      rw [acceptedBy?, Fleet.after, hcall]
      rcases f.countReceived.judge_cases report now with ⟨_, _, hanswer, hregistry⟩ | ⟨_, hanswer, hregistry⟩
      · rw [hanswer]
        exact .inl ⟨report, now, rfl, hregistry⟩
      · rw [hanswer]
        exact .inr ⟨rfl, .inl hregistry⟩
  | ingest payload now =>
      cases hdecode : Heartbeat.decode? payload with
      | none =>
          have hanswer : (f.call (.ingest payload now)).1 = .ingested none := by rw [call, ingest, hdecode]
          have hregistry : (f.after (.ingest payload now)).registry = f.registry := by
            rw [Fleet.after, call, ingest, hdecode]
            rfl
          rw [acceptedBy?, hanswer]
          exact .inr ⟨rfl, .inl hregistry⟩
      | some report =>
          have hcall : f.call (.ingest payload now) =
              (.ingested (some (report.name, (f.countReceived.judge report now).1)),
                (f.countReceived.judge report now).2) := by rw [call, ingest, hdecode]
          rw [acceptedBy?, Fleet.after, hcall, Event.delivery?, hdecode]
          rcases f.countReceived.judge_cases report now with
            ⟨_, _, hanswer, hregistry⟩ | ⟨_, hanswer, hregistry⟩
          · rw [hanswer]
            exact .inl ⟨report, now, rfl, hregistry⟩
          · rw [hanswer]
            exact .inr ⟨rfl, .inl hregistry⟩
  | sweep limit now => exact .inr ⟨rfl, .inr ⟨limit, now, rfl⟩⟩
  | define w now => exact .inr ⟨rfl, .inl rfl⟩
  | retract ns name now =>
      rw [acceptedBy?, Fleet.after, call]
      cases f.desired.retract ns name now with
      | none => exact .inr ⟨rfl, .inl rfl⟩
      | some r => exact .inr ⟨rfl, .inl rfl⟩

theorem HoldsLast.after {hs : List Heartbeat} {f : Fleet} (h : HoldsLast hs f.registry) (e : Event) :
    HoldsLast (hs ++ (f.acceptedBy? e).toList) (f.after e).registry := by
  rcases f.registry_after_cases e with
    ⟨report, now, haccepted, hregistry⟩ | ⟨hnone, hregistry | ⟨limit, now, hregistry⟩⟩
  · rw [haccepted, hregistry]
    exact h.receive report now
  · rw [hnone, hregistry, Option.toList_none, List.append_nil]
    exact h
  · rw [hnone, hregistry, Option.toList_none, List.append_nil]
    exact h.sweepAfter limit now

theorem HoldsLast.afterAll {hs : List Heartbeat} {f : Fleet} (h : HoldsLast hs f.registry) (es : List Event) :
    HoldsLast (hs ++ f.accepted es) (f.afterAll es).registry := by
  induction es generalizing hs f with
  | nil => rwa [accepted, List.append_nil]
  | cons e es ih =>
      rw [accepted, ← List.append_assoc]
      exact ih (h.after e)

/-- What is asked of the entries may as well be asked of the last accepted reports, but for the state. -/
theorem HoldsLast.agentsWhose_eq {hs : List Heartbeat} {r : Registry} (h : HoldsLast hs r)
    (p : KeyMap String → List WorkloadSummary → Prop) :
    {agent | ∃ e, r.get? agent = some e ∧ p e.record.labels e.record.pods} =
      agentsWhose (fun report => p report.labels report.pods) hs := by
  ext agent
  have hparts := congrArg (Option.map fun report : Heartbeat => (report.labels, report.pods)) (h agent)
  simp only [Option.map_map, Function.comp_def] at hparts
  simp only [agentsWhose, Set.mem_ofPred_eq]
  constructor
  · rintro ⟨e, he, hp⟩
    rw [he, Option.map_some, eq_comm, Option.map_eq_some_iff] at hparts
    obtain ⟨report, hreport, hparts⟩ := hparts
    obtain ⟨hlabels, hpods⟩ := Prod.mk.inj hparts
    exact ⟨report, hreport, hlabels ▸ hpods ▸ hp⟩
  · rintro ⟨report, hreport, hp⟩
    rw [hreport, Option.map_some, Option.map_eq_some_iff] at hparts
    obtain ⟨e, he, hparts⟩ := hparts
    obtain ⟨hlabels, hpods⟩ := Prod.mk.inj hparts
    exact ⟨e, he, hlabels ▸ hpods ▸ hp⟩

/-! ## The numbers -/

namespace Coherent

theorem afterAll {f : Fleet} (hf : f.Coherent) (es : List Event) : (f.afterAll es).Coherent := by
  induction es generalizing f with
  | nil => exact hf
  | cons e es ih => exact ih (hf.after e)

variable {f : Fleet} {w : WorkloadDefinition}

/-- A definition that is held is desired of the agents that it selects. -/
theorem countP_desired (hf : f.Coherent) (hw : f.desired.definitions.get? w.key = some w) :
    f.desired.agents.values.countP (fun a => a.workloads.contains w.key) =
      {agent | ∃ e, f.registry.get? agent = some e ∧ w.IsMeantFor e.record.labels}.ncard := by
  rw [KeyMap.countP_values]
  congr 1
  ext agent
  have hworkloads := congrArg (Option.any (·.contains w.key)) (hf.desired_workloads? agent)
  have hcontains : ∀ labels, (f.desired.selected labels).contains w.key = w.spec.selects labels := by
    intro labels
    rw [KeyMap.contains_eq, Desired.get?_selected, hw, Option.isSome_filter]
    rfl
  rw [Desired.workloads?, Option.any_map, Option.any_map] at hworkloads
  simp only [hcontains] at hworkloads
  simp only [Set.mem_ofPred_eq, WorkloadDefinition.IsMeantFor, ← WorkloadSpec.selects_iff,
    ← Option.any_eq_true, hworkloads]

theorem get?_observed (hf : f.Coherent) (agent : String) :
    f.observed.agents.get? agent = (f.registry.get? agent).map fun e => Observed.byKey e.record.pods := by
  rw [hf.observed, KeyMap.get?_map]
  rfl

/-- It is observed at the agents that list it. -/
theorem length_running (hf : f.Coherent) (w : WorkloadDefinition) :
    (f.observed.running w.key).length =
      {agent | ∃ e, f.registry.get? agent = some e ∧ w.IsListedIn e.record.pods}.ncard := by
  rw [Observed.running, List.length_map, ← List.countP_eq_length_filter,
    f.observed.agents.countP_toList fun _ pods => pods.contains w.key]
  congr 1
  ext agent
  simp [hf.get?_observed, KeyMap.contains_eq, Observed.get?_byKey, WorkloadDefinition.IsListedIn]

/-- It is ready at the agents where what is listed last of it is. -/
theorem ready_eq (hf : f.Coherent) (w : WorkloadDefinition) :
    f.observed.ready w.key w.spec.hash =
      {agent | ∃ e, f.registry.get? agent = some e ∧ w.IsReadyIn e.record.pods}.ncard := by
  rw [Observed.ready,
    f.observed.agents.countP_toList fun _ pods => (pods.get? w.key).any (Observed.isReady w.spec.hash)]
  congr 1
  ext agent
  simp [hf.get?_observed, Observed.get?_byKey, Observed.isReady, Option.any_eq_true,
    WorkloadDefinition.IsReadyIn]

end Coherent

theorem ready_le_running (o : Observed) (key hash : String) : o.ready key hash ≤ (o.running key).length := by
  rw [Observed.ready, Observed.running, List.length_map, ← List.countP_eq_length_filter]
  refine List.countP_mono_left fun e _ hready => ?_
  obtain ⟨p, hp, -⟩ := (Option.any_eq_true ..).mp hready
  rw [KeyMap.contains_eq, hp]
  rfl

theorem Coherent.size_observed {f : Fleet} (hf : f.Coherent) :
    f.observed.agents.size = f.registry.agents.size := by
  rw [hf.observed]
  exact List.length_map _

theorem Coherent.size_desired {f : Fleet} (hf : f.Coherent) :
    f.desired.agents.size = f.registry.agents.size := by
  have hlabels : f.desired.labels.size = f.registry.agents.size := by
    rw [hf.labels]
    exact List.length_map _
  rw [← hlabels]
  exact (List.length_map _).symm

/-! ## The listing -/

/-- What is told of a definition, against the reports that were accepted. -/
structure Tells (hs : List Heartbeat) (r : Rollout) : Prop where
  desired : r.desired = (agentsWhose (fun h => r.definition.IsMeantFor h.labels) hs).ncard
  scheduled : r.scheduled = (agentsWhose (fun h => r.definition.IsListedIn h.pods) hs).ncard
  ready : r.ready = (agentsWhose (fun h => r.definition.IsReadyIn h.pods) hs).ncard

theorem mem_rollouts {f : Fleet} {r : Rollout} : r ∈ f.rollouts ↔ ∃ key w,
    f.desired.definitions.get? key = some w ∧
      r = ⟨w, f.desired.agents.values.countP (fun a => a.workloads.contains key),
        (f.observed.running key).length, f.observed.ready key w.spec.hash⟩ := by
  simp only [rollouts, Desired.targets, List.map_map, List.mem_map, ← KeyMap.mem_toList]
  constructor
  · rintro ⟨e, he, rfl⟩
    exact ⟨e.1, e.2, he, rfl⟩
  · rintro ⟨key, w, hw, rfl⟩
    exact ⟨(key, w), hw, rfl⟩

theorem Coherent.tells {f : Fleet} (hf : f.Coherent) {hs : List Heartbeat} (hlast : HoldsLast hs f.registry)
    {r : Rollout} (hr : r ∈ f.rollouts) : Tells hs r := by
  obtain ⟨key, w, hw, rfl⟩ := mem_rollouts.mp hr
  obtain rfl : w.key = key := hf.desired.filed key w hw
  have hlabels := hlast.agentsWhose_eq fun labels _ => w.IsMeantFor labels
  have hlisted := hlast.agentsWhose_eq fun _ pods => w.IsListedIn pods
  have hready := hlast.agentsWhose_eq fun _ pods => w.IsReadyIn pods
  exact ⟨(hf.countP_desired hw).trans (congrArg Set.ncard hlabels),
    (hf.length_running w).trans (congrArg Set.ncard hlisted),
    (hf.ready_eq w).trans (congrArg Set.ncard hready)⟩

theorem Coherent.bounds {f : Fleet} (hf : f.Coherent) {r : Rollout} (hr : r ∈ f.rollouts) :
    r.ready ≤ r.scheduled ∧ r.scheduled ≤ f.registry.agents.size ∧ r.desired ≤ f.registry.agents.size := by
  obtain ⟨key, w, -, rfl⟩ := mem_rollouts.mp hr
  refine ⟨ready_le_running .., ?_, ?_⟩
  · rw [← hf.size_observed, Observed.running, List.length_map]
    exact List.length_filter_le ..
  · rw [← hf.size_desired]
    exact List.countP_le_length.trans_eq (List.length_map _)

/-- Whatever was reported, swept and defined in whatever order: the listing tells of each definition once, in
key order and with its hash, and the numbers are those of the reports that were accepted last. -/
theorem rollouts_count_reports (ws : List WorkloadDefinition) (now : Timestamp) (es : List Event) :
    let f := (ofDefinitions ws now).afterAll es
    let hs := (ofDefinitions ws now).accepted es
    f.rollouts.map (fun r => (r.definition.key, r.definition)) = f.desired.definitions.toList ∧
      (f.rollouts.map (·.definition.key)).Pairwise (· < ·) ∧
      f.registry.agents.size = (agentsWhose (fun _ => True) hs).ncard ∧
      ∀ r ∈ f.rollouts,
        Json.fields? ["name", "namespace", "hash"] (Api.rolloutJson r) =
          some [some (.text r.definition.name), some (.text r.definition.ns), some (.text r.definition.spec.hash)] ∧
        Tells hs r ∧ r.ready ≤ r.scheduled ∧ r.scheduled ≤ f.registry.agents.size ∧
        r.desired ≤ f.registry.agents.size := by
  intro f hs
  have hf : f.Coherent :=
    (Coherent.start (Desired.consistent_ofDefinitions ws now) (Desired.ofDefinitions_agents ws now)).afterAll es
  have hnone : HoldsLast [] (ofDefinitions ws now).registry := fun _ => rfl
  have hlast : HoldsLast hs f.registry := hnone.afterAll es
  have hlisting : f.rollouts.map (fun r => (r.definition.key, r.definition)) = f.desired.definitions.toList := by
    rw [rollouts, Desired.targets, List.map_map, List.map_map]
    refine (List.map_congr_left fun e he => ?_).trans (List.map_id _)
    exact Prod.ext (hf.desired.filed e.1 e.2 ((KeyMap.mem_toList _).mp he)) rfl
  refine ⟨hlisting, ?_, ?_, fun r hr => ⟨?_, hf.tells hlast hr, hf.bounds hr⟩⟩
  · have hkeys : f.rollouts.map (·.definition.key) = f.desired.definitions.keys := by
      rw [KeyMap.keys, ← KeyMap.toList, ← hlisting, List.map_map]
      rfl
    rw [hkeys]
    exact List.pairwise_map.mpr f.desired.definitions.ascending
  · rw [KeyMap.size_eq_ncard, ← hlast.agentsWhose_eq fun _ _ => True]
    simp [Option.isSome_iff_exists, Registry.get?]
  · rw [Api.rolloutJson, Json.fields?_record (by simp)]
    rfl

/-- One agent lists the workload twice, as outdated first; another one has it pending; a third one was
relabelled before it could be told to run it; and the last report is late. -/
theorem rollouts_count_reports_relabelled :
    let east : KeyMap String := .ofList [("zone", "east")]
    let web : WorkloadDefinition := ⟨"web", "fleet", { WorkloadSpec.ofImage "nginx" with nodeSelector := east }⟩
    let pod (hash : String) (phase : Phase) : WorkloadSummary := ⟨hash, web.workloadName, "fleet", some phase⟩
    let es : List Event :=
      [.consume { Heartbeat.ofName "edge-1" with
          labels := east, seqnum := 1, pods := [pod "old" .running, pod web.spec.hash .running] } .epoch,
        .consume { Heartbeat.ofName "edge-2" with
          labels := east, seqnum := 2, pods := [pod web.spec.hash .pending] } .epoch,
        .consume { Heartbeat.ofName "edge-3" with labels := east, seqnum := 1 } .epoch,
        .sweep 60 .epoch,
        .consume { Heartbeat.ofName "edge-3" with seqnum := 2 } .epoch,
        .consume { Heartbeat.ofName "edge-2" with seqnum := 1 } .epoch]
    let f := (ofDefinitions [web] .epoch).afterAll es
    let hs := (ofDefinitions [web] .epoch).accepted es
    hs.map (·.name) = ["edge-1", "edge-2", "edge-3", "edge-3"] ∧ f.rollouts = [⟨web, 2, 2, 1⟩] ∧
      (agentsWhose (fun h => web.IsMeantFor h.labels) hs).ncard = 2 ∧
      (agentsWhose (fun h => web.IsListedIn h.pods) hs).ncard = 2 ∧
      (agentsWhose (fun h => web.IsReadyIn h.pods) hs).ncard = 1 := by
  intro east web pod es f hs
  have hrollouts : f.rollouts = [⟨web, 2, 2, 1⟩] := by decide +kernel
  obtain ⟨-, -, -, htells⟩ := rollouts_count_reports [web] .epoch es
  obtain ⟨-, hweb, -⟩ := htells ⟨web, 2, 2, 1⟩ (hrollouts ▸ List.mem_singleton_self _)
  exact ⟨by decide +kernel, hrollouts, hweb.desired.symm, hweb.scheduled.symm, hweb.ready.symm⟩

end Fleet

end EdgeFleet
