import EdgeFleet.Proofs.Fleet.Order
import EdgeFleet.Proofs.Fleet.Runs

/-! # The stores agree

What the registry holds of an agent is the report with the greatest stamp that was delivered, and the
first of those that share it. All else that is known of the agent follows from this report.
-/

namespace EdgeFleet

/-- Of two reported workloads with one key the last one counts. -/
theorem Observed.get?_byKey (pods : List WorkloadSummary) (key : String) :
    (byKey pods).get? key = pods.reverse.find? fun p => p.key = key := by
  rw [byKey, KeyMap.get?_ofList, ← List.map_reverse]
  induction pods.reverse with
  | nil => rfl
  | cons p ps ih =>
      by_cases hkey : key = p.key
      · simp [hkey]
      · simpa [lookup_cons_of_ne hkey, Ne.symm hkey] using ih

namespace Fleet

/-! ## The latest delivery -/

def deliveriesOf (agent : String) (ds : List Delivery) : List Delivery :=
  ds.filter fun d => d.1.name = agent

theorem deliveriesOf_append (agent : String) (ds : List Delivery) (d : Delivery) :
    deliveriesOf agent (ds ++ [d]) =
      deliveriesOf agent ds ++ if d.1.name = agent then [d] else [] := by
  by_cases h : d.1.name = agent <;> simp [deliveriesOf, h]

/-- The entry holds, in some state, the delivered report with the greatest stamp, the first of those that
share it, and when it came. -/
def IsLatest (ds : List Delivery) (e : AgentEntry) : Prop :=
  ∃ before h later, ds = before ++ (h, e.lastSeen) :: later ∧
    e.record = { h with state := e.record.state } ∧
    (∀ d ∈ before, (Stamp.ofHeartbeat d.1).Before (.ofHeartbeat h)) ∧
    ∀ d ∈ later, ¬(Stamp.ofHeartbeat h).Before (.ofHeartbeat d.1)

theorem isLatest_singleton (h : Heartbeat) (now : Timestamp) (state : AgentState) :
    IsLatest [(h, now)] ⟨{ h with state }, now⟩ :=
  ⟨[], h, [], rfl, rfl, by simp, by simp⟩

theorem IsLatest.withState {ds : List Delivery} {e : AgentEntry} (h : IsLatest ds e) (state : AgentState) :
    IsLatest ds { e with record := { e.record with state } } := by
  obtain ⟨before, r, later, hds, hrecord, hbefore, hlater⟩ := h
  refine ⟨before, r, later, hds, ?_, hbefore, hlater⟩
  rw [hrecord]

/-- A later stamp than that of the latest report comes after all of them. -/
theorem IsLatest.before_of_before {ds : List Delivery} {e : AgentEntry} (h : IsLatest ds e) {s : Stamp}
    (hs : (Stamp.ofHeartbeat e.record).Before s) : ∀ d ∈ ds, (Stamp.ofHeartbeat d.1).Before s := by
  obtain ⟨before, r, later, rfl, hrecord, hbefore, hlater⟩ := h
  have hr : (Stamp.ofHeartbeat r).Before s := by
    rw [hrecord] at hs
    exact hs
  intro d hd
  rcases List.mem_append.mp hd with hd | hd
  · exact (hbefore d hd).trans hr
  · rcases List.mem_cons.mp hd with rfl | hd
    · exact hr
    · exact hr.of_not_before (hlater d hd)

theorem IsLatest.concat_newer {ds : List Delivery} {e : AgentEntry} (h : IsLatest ds e) {r : Heartbeat}
    (hnewer : (Stamp.ofHeartbeat e.record).Before (.ofHeartbeat r)) (now : Timestamp)
    (state : AgentState) : IsLatest (ds ++ [(r, now)]) ⟨{ r with state }, now⟩ :=
  ⟨ds, r, [], rfl, rfl, h.before_of_before hnewer, by simp⟩

theorem IsLatest.concat_stale {ds : List Delivery} {e : AgentEntry} (h : IsLatest ds e) {r : Heartbeat}
    (hstale : ¬(Stamp.ofHeartbeat e.record).Before (.ofHeartbeat r)) (now : Timestamp) :
    IsLatest (ds ++ [(r, now)]) e := by
  obtain ⟨before, r', later, rfl, hrecord, hbefore, hlater⟩ := h
  refine ⟨before, r', later ++ [(r, now)], by simp, hrecord, hbefore, ?_⟩
  intro d hd
  rcases List.mem_append.mp hd with hd | hd
  · exact hlater d hd
  · rw [List.mem_singleton.mp hd]
    rw [hrecord] at hstale
    exact hstale

/-! ## The registry follows the deliveries -/

/-- The agents of a registry are those that have been heard of, each with its latest report. -/
structure Follows (ds : List Delivery) (r : Registry) : Prop where
  unheard : ∀ agent, r.get? agent = none → deliveriesOf agent ds = []
  latest : ∀ agent e, r.get? agent = some e → IsLatest (deliveriesOf agent ds) e

namespace Follows

variable {ds : List Delivery}

theorem empty : Follows [] .empty where
  unheard _ _ := rfl
  latest agent e he := by simp [Registry.empty, Registry.get?] at he

/-- The report with the latest stamp is the one that the filter lets pass. -/
theorem judge {f : Fleet} (hf : f.Coherent) (h : Follows ds f.registry) (r : Heartbeat)
    (now : Timestamp) : Follows (ds ++ [(r, now)]) (f.judge r now).2.registry := by
  have hpasses := Filter.judge_eq_accepted_iff (f.filter.get? r.name) (.ofHeartbeat r)
  rw [hf.get?_filter] at hpasses
  rw [judge_registry, hf.get?_filter]
  refine ⟨fun agent hnone => ?_, fun agent e he => ?_⟩
  · rw [deliveriesOf_append]
    split at hnone
    · rw [Registry.get?_receive] at hnone
      split at hnone
      · cases hnone
      · next hname => rw [if_neg (Ne.symm hname), List.append_nil, h.unheard agent hnone]
    · next hstale =>
      -- A stale report has a predecessor, so its agent is known.
      have hname : r.name ≠ agent := by
        rintro rfl
        refine hstale (hpasses.mpr ?_)
        simp [hnone]
      rw [if_neg hname, List.append_nil, h.unheard agent hnone]
  · rw [deliveriesOf_append]
    split at he
    · next haccepted =>
      rw [Registry.get?_receive] at he
      split at he
      · next hname =>
        cases he
        rw [if_pos hname.symm, hname]
        cases hprevious : f.registry.get? r.name with
        | none =>
            rw [h.unheard _ hprevious]
            exact isLatest_singleton r now _
        | some e' =>
            refine (h.latest _ e' hprevious).concat_newer (hpasses.mp haccepted _ ?_) now _
            rw [hprevious, Option.map_some]
      · next hname =>
        rw [if_neg (Ne.symm hname), List.append_nil]
        exact h.latest agent e he
    · next hstale =>
      by_cases hname : r.name = agent
      · subst hname
        rw [if_pos rfl]
        refine (h.latest _ e he).concat_stale (fun hbefore => hstale (hpasses.mpr ?_)) now
        simpa [he] using hbefore
      · rw [if_neg hname, List.append_nil]
        exact h.latest agent e he

theorem sweepAfter {r : Registry} (h : Follows ds r) (limit : Nat) (now : Timestamp) :
    Follows ds (r.sweepAfter limit now).registry := by
  refine ⟨fun agent hnone => ?_, fun agent e he => ?_⟩
  · rw [Registry.get?_sweepAfter, Option.map_eq_none_iff] at hnone
    exact h.unheard agent hnone
  · rw [Registry.get?_sweepAfter, Option.map_eq_some_iff] at he
    obtain ⟨e', he', rfl⟩ := he
    exact (h.latest agent e' he').withState _

theorem after {f : Fleet} (hf : f.Coherent) (h : Follows ds f.registry) (e : Event) :
    Follows (ds ++ e.delivery?.toList) (f.after e).registry := by
  have hcounted : f.countReceived.Coherent := hf.congr f.sameStores_countReceived
  cases e with
  | consume r now => exact judge hcounted h r now
  | ingest payload now =>
      simp only [Fleet.after, Fleet.call, Fleet.ingest, Event.delivery?]
      cases Heartbeat.decode? payload with
      | none =>
          rw [Option.map_none, Option.toList_none, List.append_nil]
          exact h
      | some r => exact judge hcounted h r now
  | sweep limit now =>
      rw [Event.delivery?, Option.toList_none, List.append_nil]
      exact h.sweepAfter limit now
  | define w now =>
      rw [Event.delivery?, Option.toList_none, List.append_nil]
      exact h
  | retract ns name now =>
      rw [Event.delivery?, Option.toList_none, List.append_nil, Fleet.after, Fleet.call]
      cases f.desired.retract ns name now <;> exact h

end Follows

theorem Reached.follows {ds : List Delivery} {f : Fleet} (h : Reached ds f) : Follows ds f.registry := by
  induction h with
  | start ws now => exact .empty
  | call hreached e ih => exact ih.after hreached.coherent e
  | cycle hreached hcycles ih =>
      rw [cycles_fleet hcycles]
      exact ih.sweepAfter _ _
  | restore _ ws now ih => exact ih

/-! ## The stores -/

/-- All that is kept of an agent follows from its entry, and the entry from the deliveries. -/
structure Agrees (ds : List Delivery) (f : Fleet) (agent : String) (e : AgentEntry) : Prop where
  name : e.record.name = agent
  stamp : f.filter.get? agent = some ⟨e.record.seqnum, e.record.timestamp⟩
  observed : ∃ pods, f.observed.get? agent = some pods ∧
    ∀ key, pods.get? key = e.record.pods.reverse.find? fun p => p.key = key
  desired : ∃ workloads, f.desired.workloads? agent = some workloads ∧
    ∀ key w, workloads.get? key = some w ↔ f.desired.definitions.get? key = some w ∧
      ∀ k v, w.spec.nodeSelector.get? k = some v → e.record.labels.get? k = some v
  latest : IsLatest (deliveriesOf agent ds) e

theorem Coherent.desired_workloads? {f : Fleet} (hf : f.Coherent) (agent : String) :
    f.desired.workloads? agent =
      (f.registry.get? agent).map fun e => f.desired.selected e.record.labels := by
  have hlabels : f.desired.labels.get? agent = (f.registry.get? agent).map (·.record.labels) := by
    rw [hf.labels, KeyMap.get?_map]
    rfl
  rw [Desired.get?_labels] at hlabels
  rw [Desired.workloads?]
  cases ha : f.desired.agents.get? agent with
  | none =>
      rw [ha, Option.map_none, eq_comm, Option.map_eq_none_iff] at hlabels
      rw [hlabels]
      rfl
  | some a =>
      rw [ha, Option.map_some, eq_comm, Option.map_eq_some_iff] at hlabels
      obtain ⟨e, he, hlabels⟩ := hlabels
      rw [he, Option.map_some, Option.map_some, hf.desired.selected agent a ha, hlabels]

/-- In every state that a fleet reaches, its stores know the same agents, namely those from which a report
was delivered, and agree on each of them with the latest one. -/
theorem stores_agree {ds : List Delivery} {f : Fleet} (h : Reached ds f) :
    f.filter.stamps.keys = f.registry.agents.keys ∧ f.observed.agents.keys = f.registry.agents.keys ∧
      f.desired.agents.keys = f.registry.agents.keys ∧
      (∀ agent, f.registry.get? agent = none ↔ ∀ d ∈ ds, d.1.name ≠ agent) ∧
      ∀ agent e, f.registry.get? agent = some e → f.Agrees ds agent e := by
  have hf := h.coherent
  have hfollows := h.follows
  refine ⟨?_, ?_, ?_, fun agent => ⟨fun hnone => ?_, fun hunheard => ?_⟩, fun agent e he => ?_⟩
  · rw [hf.filter, KeyMap.keys_map]
  · rw [hf.observed, KeyMap.keys_map]
  · rw [← Desired.keys_labels, hf.labels, KeyMap.keys_map]
  · have hnil := hfollows.unheard agent hnone
    rw [deliveriesOf, List.filter_eq_nil_iff] at hnil
    simpa using hnil
  · cases he : f.registry.get? agent with
    | none => rfl
    | some e =>
        obtain ⟨before, r, later, hds, -⟩ := hfollows.latest agent e he
        have hmem : (r, e.lastSeen) ∈ deliveriesOf agent ds := by simp [hds]
        obtain ⟨hmem, hname⟩ := List.mem_filter.mp hmem
        exact absurd (by simpa using hname) (hunheard _ hmem)
  · refine ⟨hf.filed agent e he, ?_, ?_, ?_, hfollows.latest agent e he⟩
    · rw [hf.get?_filter, he]
      rfl
    · refine ⟨Observed.byKey e.record.pods, ?_, Observed.get?_byKey _⟩
      rw [Observed.get?, hf.observed, KeyMap.get?_map]
      exact congrArg _ he
    · refine ⟨f.desired.selected e.record.labels, by rw [hf.desired_workloads?, he, Option.map_some], ?_⟩
      intro key w
      rw [Desired.get?_selected_eq_some, WorkloadSpec.selects_iff]

/-- A late report changes nothing, and one workload that is reported twice is observed as it came last. -/
theorem stores_agree_late :
    let h : Heartbeat :=
      { Heartbeat.ofName "edge-1" with seqnum := 2, pods := [⟨"a", "w", "ns", none⟩, ⟨"b", "w", "ns", none⟩] }
    let late : Heartbeat := { Heartbeat.ofName "edge-1" with seqnum := 1 }
    let ds : List Delivery := [(h, .epoch), (late, .epoch)]
    let f := (ofDefinitions [⟨"web", "fleet", .ofImage "nginx"⟩] .epoch).afterAll
      [.consume h .epoch, .sweep 0 .epoch, .consume late .epoch]
    let e : AgentEntry := ⟨{ h with state := .registered }, .epoch⟩
    Reached ds f ∧ f.registry.get? "edge-1" = some e ∧ f.Agrees ds "edge-1" e := by
  intro h late ds f e
  have hreached : Reached ds f :=
    (((Reached.start _ _).call (.consume h .epoch)).call (.sweep 0 .epoch)).call (.consume late .epoch)
  have he : f.registry.get? "edge-1" = some e := by decide +kernel
  exact ⟨hreached, he, (stores_agree hreached).2.2.2.2 "edge-1" e he⟩

end Fleet

end EdgeFleet
