import EdgeFleet.Proofs.Fleet.Agreement
import EdgeFleet.Proofs.Fleet.Offers
import Mathlib.Logic.Function.Iterate

/-! # A report is taken in step by step

The filter is asked about a report first, and then it is noted in one store after the other. Each step leaves
the stores in a state that other calls may see and change before the next one.
-/

namespace EdgeFleet

open Fleet

namespace Registry

/-- The stamp of the report that the entry of an agent holds. -/
def stamp? (r : Registry) (agent : String) : Option Stamp :=
  (r.get? agent).map fun e => .ofHeartbeat e.record

/-- No entry has been lost or turned back to an earlier stamp. -/
def NoOlder (r r' : Registry) : Prop :=
  ∀ agent t, r.stamp? agent = some t → ∃ t', r'.stamp? agent = some t' ∧ ¬t'.Before t

end Registry

/-! ## One task -/

/-- How far a task is with a report. -/
inductive Ingestion where
  | offered (d : Delivery)
  | passed (d : Delivery)
  | observed (d : Delivery)
  | compared (d : Delivery) (changes : List WorkloadCommand)
  | filed (d : Delivery) (changes : List WorkloadCommand) (arrival : Arrival)
  | finished (d : Delivery) (outcome : Ingest)

/-- The stores that a report is noted in. -/
inductive Part where
  | filter | observed | registry | labels

namespace Fleet

/-- The next step of a task. No other task sees the fleet in the middle of it. -/
def advance (f : Fleet) : Ingestion → Ingestion × Fleet
  | .offered (h, now) =>
    match f.filter.decide h.name (.ofHeartbeat h) with
    | (.accepted, filter) =>
      (.passed (h, now), { f with filter, stats := { f.stats with accepted := f.stats.accepted + 1 } })
    | (d, _) =>
      (.finished (h, now) (.rejected d),
        { f with stats := { f.stats with rejected := f.stats.rejected + 1 } })
  | .passed (h, now) => (.observed (h, now), { f with observed := f.observed.record h.name h.pods })
  | .observed (h, now) => (.compared (h, now) (f.desired.diff h.name h.pods now), f)
  | .compared (h, now) changes =>
    let (arrival, registry) := f.registry.receive h now
    (.filed (h, now) changes arrival, { f with registry })
  | .filed (h, now) changes arrival =>
    let (additions, desired) := f.desired.enroll h.name h.labels
    (.finished (h, now) (.accepted arrival (changes ++ additions)), { f with desired })
  | .finished d outcome => (.finished d outcome, f)

theorem advance_of_accepted {f : Fleet} {h : Heartbeat}
    (haccepted : Filter.judge (f.filter.get? h.name) (.ofHeartbeat h) = .accepted) (now : Timestamp) :
    f.advance (.offered (h, now)) = (.passed (h, now), { f with
      filter := f.filter.seed h.name (.ofHeartbeat h)
      stats := { f.stats with accepted := f.stats.accepted + 1 } }) := by
  rw [advance, Filter.decide_of_accepted haccepted]

theorem advance_of_stale {f : Fleet} {h : Heartbeat}
    (hstale : Filter.judge (f.filter.get? h.name) (.ofHeartbeat h) ≠ .accepted) (now : Timestamp) :
    f.advance (.offered (h, now)) =
      (.finished (h, now) (.rejected (Filter.judge (f.filter.get? h.name) (.ofHeartbeat h))),
        { f with stats := { f.stats with rejected := f.stats.rejected + 1 } }) := by
  rw [advance, Filter.decide_of_stale hstale]
  cases hjudge : Filter.judge (f.filter.get? h.name) (.ofHeartbeat h) with
  | accepted => exact absurd hjudge hstale
  | staleSeq => rfl
  | staleTimestamp => rfl

/-- A task that is left alone takes in its report as a single call does. -/
theorem iterate_advance (f : Fleet) (h : Heartbeat) (now : Timestamp) :
    (fun s : Ingestion × Fleet => s.2.advance s.1)^[5] (.offered (h, now), f) =
      (.finished (h, now) (f.judge h now).1, (f.judge h now).2) := by
  by_cases haccepted : Filter.judge (f.filter.get? h.name) (.ofHeartbeat h) = .accepted
  · rw [Function.iterate_succ_apply, advance_of_accepted haccepted, judge_of_accepted haccepted]
    rfl
  · rw [Function.iterate_succ_apply, advance_of_stale haccepted, judge_of_stale haccepted]
    rfl

/-! ### What the stores show -/

/-- What the store shows of the agent is this report. -/
def Shows (f : Fleet) (h : Heartbeat) : Part → Prop
  | .filter => f.filter.get? h.name = some (.ofHeartbeat h)
  | .observed => f.observed.agents.get? h.name = some (Observed.byKey h.pods)
  | .registry => ∃ e, f.registry.get? h.name = some e ∧ e.record = { h with state := e.record.state }
  | .labels => f.desired.labels.get? h.name = some h.labels

/-- The store shows the same of an agent. -/
def Alike (f g : Fleet) (agent : String) : Part → Prop
  | .filter => f.filter.get? agent = g.filter.get? agent
  | .observed => f.observed.agents.get? agent = g.observed.agents.get? agent
  | .registry => f.registry.get? agent = g.registry.get? agent
  | .labels => f.desired.labels.get? agent = g.desired.labels.get? agent

variable {f g g' : Fleet} {agent : String} {p : Part}

theorem Alike.refl (f : Fleet) (agent : String) (p : Part) : f.Alike f agent p := by
  cases p <;> rfl

theorem Alike.trans (h : f.Alike g agent p) (h' : g.Alike g' agent p) : f.Alike g' agent p := by
  cases p <;> exact Eq.trans h h'

theorem Shows.of_alike {h : Heartbeat} (hshows : f.Shows h p) (halike : g.Alike f h.name p) :
    g.Shows h p := by
  cases p with
  | filter => exact Eq.trans halike hshows
  | observed => exact Eq.trans halike hshows
  | registry =>
      obtain ⟨e, he, hrecord⟩ := hshows
      exact ⟨e, Eq.trans halike he, hrecord⟩
  | labels => exact Eq.trans halike hshows

/-- The filter, the observed workloads and the labels of the agent are those of its report in the registry. -/
structure AgreesOn (f : Fleet) (agent : String) : Prop where
  filter : f.filter.get? agent = (f.registry.get? agent).map fun e => .ofHeartbeat e.record
  observed : f.observed.agents.get? agent = (f.registry.get? agent).map fun e => Observed.byKey e.record.pods
  labels : f.desired.labels.get? agent = (f.registry.get? agent).map fun e => e.record.labels

theorem agreesOn_of_shows {h : Heartbeat} (hshows : ∀ p, f.Shows h p) : f.AgreesOn h.name := by
  obtain ⟨e, he, hrecord⟩ := hshows .registry
  refine ⟨?_, ?_, ?_⟩ <;> rw [he, Option.map_some, hrecord]
  · exact hshows .filter
  · exact hshows .observed
  · exact hshows .labels

theorem AgreesOn.of_alike (h : f.AgreesOn agent) (halike : ∀ p, g.Alike f agent p) : g.AgreesOn agent := by
  have hregistry : g.registry.get? agent = f.registry.get? agent := halike .registry
  refine ⟨?_, ?_, ?_⟩ <;> rw [hregistry]
  · exact Eq.trans (halike .filter) h.filter
  · exact Eq.trans (halike .observed) h.observed
  · exact Eq.trans (halike .labels) h.labels

theorem Coherent.agreesOn (h : f.Coherent) (agent : String) : f.AgreesOn agent where
  filter := h.get?_filter agent
  observed := by rw [h.observed, KeyMap.get?_map, Registry.get?]
  labels := by rw [h.labels, KeyMap.get?_map, Registry.get?]

theorem coherent_of_agreesOn (hfiled : f.registry.Filed) (hdesired : f.desired.Consistent)
    (h : ∀ agent, f.AgreesOn agent) : f.Coherent where
  filed := hfiled
  filter := KeyMap.ext fun agent => by
    rw [KeyMap.get?_map]
    exact (h agent).filter
  observed := KeyMap.ext fun agent => by
    rw [KeyMap.get?_map]
    exact (h agent).observed
  desired := hdesired
  labels := KeyMap.ext fun agent => by
    rw [KeyMap.get?_map]
    exact (h agent).labels

end Fleet

namespace Ingestion

/-- The report that is noted in a store by the step from one stage to the next. -/
def writes : Ingestion → Ingestion → Part → List Delivery
  | .offered d, .passed _, .filter => [d]
  | .passed d, _, .observed => [d]
  | .compared d _, _, .registry => [d]
  | .filed d _ _, _, .labels => [d]
  | _, _, _ => []

/-- The report, when it has passed and is still to be noted in a store. -/
def pending : Ingestion → Part → List Delivery
  | .passed d, .observed => [d]
  | .passed d, .registry | .observed d, .registry | .compared d _, .registry => [d]
  | .passed d, .labels | .observed d, .labels | .compared d _, .labels | .filed d _ _, .labels => [d]
  | _, _ => []

def isFinished : Ingestion → Bool
  | .finished _ _ => true
  | _ => false

theorem pending_of_isFinished {i : Ingestion} (h : i.isFinished = true) (p : Part) : i.pending p = [] := by
  cases i with
  | finished d outcome => rfl
  | _ => cases h

/-- The stamp that the filter is still to be asked about. -/
def offer : Ingestion → List Offer
  | .offered d => [(d.1.name, .ofHeartbeat d.1)]
  | _ => []

/-- A step notes one report at most. -/
theorem writes_cases (i next : Ingestion) (p : Part) :
    i.writes next p = [] ∨ ∃ d, i.writes next p = [d] := by
  unfold writes
  split <;> simp

/-- A report that is noted has just been offered, or it was pending. -/
theorem of_mem_writes {i next : Ingestion} {p : Part} {d : Delivery} (h : d ∈ i.writes next p) :
    p = .filter ∧ i = .offered d ∨ p ≠ .filter ∧ d ∈ i.pending p := by
  unfold writes at h
  split at h
  case h_5 => cases h
  all_goals cases List.mem_singleton.mp h
  · exact .inl ⟨rfl, rfl⟩
  all_goals exact .inr ⟨by simp, List.mem_singleton_self d⟩

/-- The labels are noted last. -/
theorem pending_subset (i : Ingestion) (p : Part) : i.pending p ⊆ i.pending .labels := by
  cases i <;> cases p <;> simp [pending]

/-- All that a step does. -/
structure StepSpec (f : Fleet) (i next : Ingestion) (g : Fleet) : Prop where
  balance : ∀ p, i.pending p ++ i.writes next .filter = i.writes next p ++ next.pending p
  shows : ∀ p, ∀ d ∈ i.writes next p, g.Shows d.1 p
  alike : ∀ p agent, (∀ d ∈ i.writes next p, d.1.name ≠ agent) → g.Alike f agent p
  consistent : g.desired.Consistent
  filed : f.registry.Filed → g.registry.Filed
  filter : g.filter = f.filter.offerAll i.offer ∧ next.offer = []
  later : ∀ d ∈ i.writes next .filter, ∀ s, f.filter.get? d.1.name = some s → s.Before (.ofHeartbeat d.1)

variable {f : Fleet}

/-- A step that notes nothing. -/
theorem StepSpec.of_silent {i next : Ingestion} {g : Fleet} (hf : f.desired.Consistent)
    (hwrites : ∀ p, i.writes next p = []) (hpending : ∀ p, i.pending p = next.pending p)
    (hsame : f.SameStores g) (hoffer : f.filter.offerAll i.offer = f.filter) (hnext : next.offer = []) :
    StepSpec f i next g where
  balance p := by rw [hwrites, hwrites, hpending, List.append_nil, List.nil_append]
  shows p d hd := by
    rw [hwrites] at hd
    cases hd
  alike p agent _ := by
    obtain ⟨hregistry, hfilter, hobserved, hdesired⟩ := hsame
    cases p <;> simp only [Alike, hregistry, hfilter, hobserved, hdesired]
  consistent := hsame.desired ▸ hf
  filed := hsame.registry ▸ id
  filter := ⟨hsame.filter.symm.trans hoffer.symm, hnext⟩
  later d hd := by
    rw [hwrites] at hd
    cases hd

theorem stepSpec_offered (hf : f.desired.Consistent) (h : Heartbeat) (now : Timestamp) :
    StepSpec f (.offered (h, now)) (f.advance (.offered (h, now))).1 (f.advance (.offered (h, now))).2 := by
  have hpasses := Filter.judge_eq_accepted_iff (f.filter.get? h.name) (.ofHeartbeat h)
  by_cases haccepted : Filter.judge (f.filter.get? h.name) (.ofHeartbeat h) = .accepted
  · rw [advance_of_accepted haccepted]
    have hfilter : f.filter.offerAll [(h.name, .ofHeartbeat h)] = f.filter.seed h.name (.ofHeartbeat h) := by
      simp [Filter.offerAll, Filter.decide_of_accepted haccepted]
    refine ⟨fun p => by cases p <;> rfl, fun p d hd => ?_, fun p agent hother => ?_, hf, id,
      ⟨hfilter.symm, rfl⟩, fun d hd => ?_⟩
    · cases p with
      | filter =>
          cases List.mem_singleton.mp hd
          exact (Filter.get?_seed ..).trans (if_pos rfl)
      | observed | registry | labels => cases hd
    · cases p with
      | filter => exact (Filter.get?_seed ..).trans (if_neg (hother _ (List.mem_singleton_self _)).symm)
      | observed | registry | labels => rfl
    · cases List.mem_singleton.mp hd
      exact hpasses.mp haccepted
  · rw [advance_of_stale haccepted]
    have hfilter : f.filter.offerAll [(h.name, .ofHeartbeat h)] = f.filter := by
      simp [Filter.offerAll, Filter.decide_of_stale haccepted]
    exact .of_silent hf (fun _ => rfl) (fun _ => rfl) ⟨rfl, rfl, rfl, rfl⟩ hfilter rfl

theorem stepSpec (hf : f.desired.Consistent) (i : Ingestion) :
    StepSpec f i (f.advance i).1 (f.advance i).2 := by
  cases i with
  | offered d => exact stepSpec_offered hf d.1 d.2
  | passed d =>
      refine ⟨fun p => by cases p <;> rfl, fun p d' hd => ?_, fun p agent hother => ?_, hf, id,
        ⟨rfl, rfl⟩, fun _ hd => absurd hd List.not_mem_nil⟩
      · cases p with
        | observed =>
            cases List.mem_singleton.mp hd
            exact KeyMap.get?_insert_self ..
        | filter | registry | labels => cases hd
      · cases p with
        | observed => exact KeyMap.get?_insert_of_ne _ _ (hother _ (List.mem_singleton_self _)).symm
        | filter | registry | labels => rfl
  | observed d => exact .of_silent hf (fun _ => rfl) (fun p => by cases p <;> rfl) ⟨rfl, rfl, rfl, rfl⟩ rfl rfl
  | compared d changes =>
      refine ⟨fun p => by cases p <;> rfl, fun p d' hd => ?_, fun p agent hother => ?_, hf,
        fun hfiled => hfiled.receive d.1 d.2, ⟨rfl, rfl⟩, fun _ hd => absurd hd List.not_mem_nil⟩
      · cases p with
        | registry =>
            cases List.mem_singleton.mp hd
            exact ⟨_, (Registry.get?_receive ..).trans (if_pos rfl), rfl⟩
        | filter | observed | labels => cases hd
      · cases p with
        | registry =>
            exact (Registry.get?_receive ..).trans (if_neg (hother _ (List.mem_singleton_self _)).symm)
        | filter | observed | labels => rfl
  | filed d changes arrival =>
      have hlabels := Desired.labels_enroll hf d.1.name d.1.labels
      refine ⟨fun p => by cases p <;> rfl, fun p d' hd => ?_, fun p agent hother => ?_,
        hf.enroll d.1.name d.1.labels, id, ⟨rfl, rfl⟩, fun _ hd => absurd hd List.not_mem_nil⟩
      · cases p with
        | labels =>
            cases List.mem_singleton.mp hd
            exact (congrArg (·.get? d.1.name) hlabels).trans (KeyMap.get?_insert_self ..)
        | filter | observed | registry => cases hd
      · cases p with
        | labels =>
            have hne := (hother _ (List.mem_singleton_self _)).symm
            exact (congrArg (·.get? agent) hlabels).trans (KeyMap.get?_insert_of_ne _ _ hne)
        | filter | observed | registry => rfl
  | finished d outcome => exact .of_silent hf (fun _ => rfl) (fun _ => rfl) ⟨rfl, rfl, rfl, rfl⟩ rfl rfl

end Ingestion

end EdgeFleet
