import EdgeFleet.Proofs.Fleet.Runs

/-! # A fleet built anew goes on as before

Everything that decides what a fleet answers is in its entries and its definitions. A fleet that is built
from them differs from the old one in the rows of the listing until the next sweep and in what was counted,
and neither has any influence.
-/

namespace EdgeFleet

namespace Desired

/-- Definitions under fresh keys are all taken in, whatever their hashes are. -/
theorem definitions_foldl_define (now : Timestamp) {d : Desired}
    {es : List (String × WorkloadDefinition)} (hfiled : ∀ e ∈ es, e.2.key = e.1)
    (hnodup : (es.map (·.1)).Nodup) (hfresh : ∀ e ∈ es, d.definitions.get? e.1 = none) :
    ((es.map (·.2)).foldl (fun d w => (d.define w now).2) d).definitions =
      es.foldl (fun m e => m.insert e.1 e.2) d.definitions := by
  induction es generalizing d with
  | nil => rfl
  | cons e es ih =>
      obtain ⟨hnew, hnodup⟩ := List.nodup_cons.mp hnodup
      obtain ⟨hkey, hfiled⟩ := List.forall_mem_cons.mp hfiled
      obtain ⟨hnone, hfresh⟩ := List.forall_mem_cons.mp hfresh
      have hdefine : (d.define e.2 now).2.definitions = d.definitions.insert e.1 e.2 := by
        rw [define_definitions, hkey, hnone]
        rfl
      have hstill : ∀ e' ∈ es, (d.define e.2 now).2.definitions.get? e'.1 = none := by
        intro e' he'
        have hne : e'.1 ≠ e.1 := fun heq => hnew (List.mem_map.mpr ⟨e', he', heq⟩)
        rw [hdefine, KeyMap.get?_insert_of_ne _ _ hne, hfresh e' he']
      rw [List.map_cons, List.foldl_cons, List.foldl_cons, ih hfiled hnodup hstill, hdefine]

/-- The definitions of a consistent state, given anew, are the same again. -/
theorem Consistent.definitions_ofDefinitions {d : Desired} (h : d.Consistent) (now : Timestamp) :
    (ofDefinitions d.definitions.values now).definitions = d.definitions := by
  have hfiled : ∀ e ∈ d.definitions.toList, e.2.key = e.1 :=
    fun e he => h.filed e.1 e.2 ((KeyMap.mem_toList _).mp he)
  have hadded := definitions_foldl_define now (d := empty) hfiled d.definitions.nodup_keys fun _ _ => rfl
  exact hadded.trans d.definitions.ofList_toList

end Desired

namespace Fleet

/-! ## Building anew -/

theorem Coherent.restore_sameStores {f : Fleet} (hf : f.Coherent) (now : Timestamp) :
    (Fleet.restore f.registry.agents (.ofDefinitions f.desired.definitions.values now)).SameStores f := by
  have hnew := Desired.consistent_ofDefinitions f.desired.definitions.values now
  have hnone := Desired.ofDefinitions_agents f.desired.definitions.values now
  obtain ⟨hconsistent, hdefs, hlabels⟩ := restore_desired_spec hnew hnone f.registry.agents
  refine ⟨rfl, congrArg Filter.mk hf.filter.symm, congrArg Observed.mk hf.observed.symm, ?_⟩
  apply hconsistent.eq hf.desired
  · rw [hdefs, hf.desired.definitions_ofDefinitions]
  · intro agent
    rw [← Desired.get?_labels, ← Desired.get?_labels, hlabels, hf.labels]

/-! ## Going on -/

/-- The rows of the listing change by sweeps only, and then follow from the registry. -/
theorem nodes_after (f : Fleet) (e : Event) :
    (f.after e).nodes =
      match e with
      | .sweep limit now => (f.registry.sweepAfter limit now).rows
      | _ => f.nodes := by
  have hjudge : ∀ (f : Fleet) h now, (f.judge h now).2.nodes = f.nodes := by
    intro f h now
    by_cases haccepted : Filter.judge (f.filter.get? h.name) (.ofHeartbeat h) = .accepted
    · rw [judge_of_accepted haccepted]
      rfl
    · rw [judge_of_stale haccepted]
  cases e with
  | consume h now => exact hjudge f.countReceived h now
  | ingest payload now =>
      simp only [after, call, ingest]
      cases Heartbeat.decode? payload with
      | none => rfl
      | some h => exact hjudge f.countReceived h now
  | sweep limit now => rfl
  | define w now => rfl
  | retract ns name now =>
      rw [after, call]
      cases f.desired.retract ns name now <;> rfl

namespace SameStores

variable {f g : Fleet}

theorem absorb (h : f.SameStores g) (r : Heartbeat) (now : Timestamp) :
    (f.absorb r now).1 = (g.absorb r now).1 ∧ (f.absorb r now).2.SameStores (g.absorb r now).2 := by
  obtain ⟨hregistry, hfilter, hobserved, hdesired⟩ := h
  refine ⟨?_, ?_, hfilter, ?_, ?_⟩
  · simp only [Fleet.absorb, hregistry, hdesired]
  · exact congrArg (fun registry => (registry.receive r now).2) hregistry
  · exact congrArg (·.record r.name r.pods) hobserved
  · exact congrArg (fun desired => (desired.enroll r.name r.labels).2) hdesired

theorem judge (h : f.SameStores g) (r : Heartbeat) (now : Timestamp) :
    (f.judge r now).1 = (g.judge r now).1 ∧ (f.judge r now).2.SameStores (g.judge r now).2 := by
  by_cases haccepted : Filter.judge (f.filter.get? r.name) (.ofHeartbeat r) = .accepted
  · rw [judge_of_accepted haccepted, judge_of_accepted (h.filter ▸ haccepted)]
    have hfilter := congrArg (·.seed r.name (.ofHeartbeat r)) h.filter
    apply absorb
    exact ⟨h.registry, hfilter, h.observed, h.desired⟩
  · rw [judge_of_stale haccepted, judge_of_stale (h.filter ▸ haccepted), h.filter]
    exact ⟨rfl, h.registry, rfl, h.observed, h.desired⟩

/-- Fleets with the same stores answer a call alike and have the same stores after it. -/
theorem call (h : f.SameStores g) (e : Event) :
    (f.call e).1 = (g.call e).1 ∧ (f.after e).SameStores (g.after e) := by
  have hcounted : f.countReceived.SameStores g.countReceived := ⟨h.registry, h.filter, h.observed, h.desired⟩
  cases e with
  | consume r now =>
      obtain ⟨houtcome, hstores⟩ := hcounted.judge r now
      exact ⟨congrArg Answer.consumed houtcome, hstores⟩
  | ingest payload now =>
      simp only [Fleet.after, Fleet.call, Fleet.ingest]
      cases Heartbeat.decode? payload with
      | none => exact ⟨rfl, hcounted.registry, hcounted.filter, hcounted.observed, hcounted.desired⟩
      | some r =>
          obtain ⟨houtcome, hstores⟩ := hcounted.judge r now
          exact ⟨congrArg (fun o => Answer.ingested (some (r.name, o))) houtcome, hstores⟩
  | sweep limit now =>
      have hsweep := congrArg (·.sweepAfter limit now) h.registry
      exact ⟨congrArg Answer.swept hsweep, congrArg (·.registry) hsweep, h.filter, h.observed, h.desired⟩
  | define w now =>
      obtain ⟨hregistry, hfilter, hobserved, hdesired⟩ := h
      simp only [Fleet.after, Fleet.call, hdesired]
      exact ⟨trivial, hregistry, hfilter, hobserved, rfl⟩
  | retract ns name now =>
      rw [Fleet.after, Fleet.after, Fleet.call, Fleet.call, h.desired]
      cases g.desired.retract ns name now with
      | none => exact ⟨rfl, h⟩
      | some r => exact ⟨rfl, h.registry, h.filter, h.observed, rfl⟩

theorem nodes_after (h : f.SameStores g) {e : Event}
    (hnodes : f.nodes = g.nodes ∨ ∃ limit now, e = .sweep limit now) :
    (f.after e).nodes = (g.after e).nodes := by
  rw [Fleet.nodes_after, Fleet.nodes_after, h.registry]
  cases e with
  | sweep limit now => rfl
  | _ => exact hnodes.resolve_right (by simp)

theorem run (h : f.SameStores g) (es : List Event) :
    f.answers es = g.answers es ∧ (f.afterAll es).SameStores (g.afterAll es) := by
  induction es generalizing f g with
  | nil => exact ⟨rfl, h⟩
  | cons e es ih =>
      obtain ⟨hanswer, hstores⟩ := h.call e
      obtain ⟨hanswers, hlast⟩ := ih hstores
      exact ⟨by rw [answers, answers, hanswer, hanswers], hlast⟩

/-- One sweep makes the rows the same, and they stay so. -/
theorem nodes_run (h : f.SameStores g) {es : List Event}
    (hnodes : f.nodes = g.nodes ∨ ∃ limit now, .sweep limit now ∈ es) :
    (f.afterAll es).nodes = (g.afterAll es).nodes := by
  induction es generalizing f g with
  | nil => exact hnodes.resolve_right (by simp)
  | cons e es ih =>
      refine ih (h.call e).2 ?_
      rcases hnodes with hnodes | ⟨limit, now, hmem⟩
      · exact .inl (h.nodes_after (.inl hnodes))
      · rcases List.mem_cons.mp hmem with rfl | hmem
        · exact .inl (h.nodes_after (.inr ⟨limit, now, rfl⟩))
        · exact .inr ⟨limit, now, hmem⟩

end SameStores

/-- A fleet that is built anew from the entries and the definitions of one that was reached, whatever
happened to that one, answers all further calls alike and keeps the same stores. From the first sweep on
the rows of the listing are the same, too. -/
theorem restore_goes_on {ds : List Delivery} {f : Fleet} (h : Reached ds f) (now : Timestamp)
    (es : List Event) :
    let g := Fleet.restore f.registry.agents (.ofDefinitions f.desired.definitions.values now)
    g.answers es = f.answers es ∧ (g.afterAll es).registry = (f.afterAll es).registry ∧
      (g.afterAll es).filter = (f.afterAll es).filter ∧
      (g.afterAll es).observed = (f.afterAll es).observed ∧
      (g.afterAll es).desired = (f.afterAll es).desired ∧
      ((∃ limit now, .sweep limit now ∈ es) → (g.afterAll es).nodes = (f.afterAll es).nodes) := by
  intro g
  have hstores : g.SameStores f := h.coherent.restore_sameStores now
  obtain ⟨hanswers, hlast⟩ := hstores.run es
  exact ⟨hanswers, hlast.registry, hlast.filter, hlast.observed, hlast.desired,
    fun hsweep => hstores.nodes_run (.inr hsweep)⟩

/-- A fleet that has turned a late report away is built anew, which forgets what was counted and dates the
row by the report instead of the sweep. -/
theorem restore_goes_on_counted :
    let minute : Timestamp := ⟨1970, 1, 1, 0, 1, 0, 0, 0, by decide, by decide⟩
    let h : Heartbeat := { Heartbeat.ofName "edge-1" with seqnum := 2 }
    let late : Heartbeat := { Heartbeat.ofName "edge-1" with seqnum := 1 }
    let f := (ofDefinitions [⟨"web", "fleet", .ofImage "nginx"⟩] .epoch).afterAll
      [.consume h .epoch, .sweep 0 minute, .consume late minute]
    let g := Fleet.restore f.registry.agents (.ofDefinitions f.desired.definitions.values minute)
    let es : List Event := [.consume { h with seqnum := 3 } minute, .sweep 0 minute]
    Reached [(h, .epoch), (late, minute)] f ∧ g.stats ≠ f.stats ∧ g.nodes ≠ f.nodes ∧
      g.answers es = f.answers es ∧ (g.afterAll es).registry = (f.afterAll es).registry ∧
      (g.afterAll es).nodes = (f.afterAll es).nodes := by
  intro minute h late f g es
  have hreached : Reached [(h, .epoch), (late, minute)] f :=
    (((Reached.start _ _).call (.consume h .epoch)).call (.sweep 0 minute)).call (.consume late minute)
  obtain ⟨hanswers, hregistry, -, -, -, hnodes⟩ := restore_goes_on hreached minute es
  refine ⟨hreached, by decide +kernel, by decide +kernel, hanswers, hregistry, hnodes ⟨0, minute, ?_⟩⟩
  exact List.mem_cons_of_mem _ (List.mem_singleton.mpr rfl)

end Fleet

end EdgeFleet
