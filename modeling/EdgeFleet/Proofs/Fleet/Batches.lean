import EdgeFleet.Proofs.Fleet.Agreement
import EdgeFleet.Proofs.Workloads.Convergence

/-! # The commands that a report brings

The difference to what is desired is made with the labels that were given before; the labels of the report
itself are noted last. So after a change of labels the first commands may contradict what is desired then.
-/

namespace EdgeFleet

/-- The command brings a desired workload in its version, or removes one that is not desired. -/
def WorkloadCommand.Fits (desired : KeyMap WorkloadDefinition) (c : WorkloadCommand) : Prop :=
  if c.isDelete then desired.get? c.key = none
  else ∃ w, desired.get? c.key = some w ∧ w.spec.hash = c.hash

namespace WorkloadCommand

theorem fits_delete_iff {desired : KeyMap WorkloadDefinition} (p : WorkloadSummary) (now : Timestamp) :
    (delete p.hash p.name p.ns now).Fits desired ↔ desired.get? p.key = none := by
  rfl

/-- A batch that fits has no command to bring a workload and to remove it. -/
theorem Fits.key_ne {desired : KeyMap WorkloadDefinition} {c c' : WorkloadCommand}
    (h : c.Fits desired) (h' : c'.Fits desired) (hdelete : c.isDelete = true)
    (hsync : c'.isDelete = false) : c.key ≠ c'.key := by
  intro hkey
  rw [Fits, if_pos hdelete] at h
  rw [Fits, if_neg (by simp [hsync])] at h'
  obtain ⟨w, hw, -⟩ := h'
  rw [← hkey, h] at hw
  cases hw

end WorkloadCommand

namespace Desired

/-! ## The batch -/

/-- The commands for a report that is taken in. -/
def batch (d : Desired) (r : Heartbeat) (now : Timestamp) : List WorkloadCommand :=
  d.diff r.name r.pods now ++ (d.enroll r.name r.labels).1

theorem Consistent.fits_syncCommand_iff {d : Desired} (h : d.Consistent) {w : WorkloadDefinition} {k : String}
    (hw : d.definitions.get? k = some w) (labels : KeyMap String) :
    w.syncCommand.Fits (d.selected labels) ↔ w.spec.selects labels = true := by
  have hkey : w.syncCommand.key = k := h.filed k w hw
  change (∃ v, (d.selected labels).get? w.syncCommand.key = some v ∧ v.spec.hash = w.spec.hash) ↔ _
  rw [hkey]
  constructor
  · rintro ⟨v, hv, -⟩
    obtain ⟨hv, hselects⟩ := (d.get?_selected_eq_some labels k v).mp hv
    rw [hw] at hv
    exact Option.some.inj hv ▸ hselects
  · exact fun hselects => ⟨w, (d.get?_selected_eq_some labels k w).mpr ⟨hw, hselects⟩, rfl⟩

theorem get?_selected_eq_none_iff (d : Desired) (labels : KeyMap String) (k : String) :
    (d.selected labels).get? k = none ↔
      ∀ w, d.definitions.get? k = some w → w.spec.selects labels = false := by
  rw [get?_selected, Option.filter_eq_none_iff]
  simp

/-- An agent that was not known is sent what its labels select. -/
theorem mem_batch_of_unknown {d : Desired} {r : Heartbeat} (hnone : d.agents.get? r.name = none)
    (now : Timestamp) (c : WorkloadCommand) :
    c ∈ d.batch r now ↔ ∃ k w, d.definitions.get? k = some w ∧ w.spec.selects r.labels = true ∧
      c = w.syncCommand := by
  rw [batch, diff, enroll, hnone]
  simp only [List.nil_append, List.mem_map, KeyMap.mem_values, get?_selected_eq_some]
  constructor
  · rintro ⟨w, ⟨k, hw, hselects⟩, rfl⟩
    exact ⟨k, w, hw, hselects, rfl⟩
  · rintro ⟨k, w, hw, hselects, rfl⟩
    exact ⟨w, ⟨k, hw, hselects⟩, rfl⟩

/-- A change of labels brings what the new labels select and the old ones did not. -/
theorem mem_enroll_of_known {d : Desired} (h : d.Consistent) {agent : String} {a : DesiredAgent}
    (ha : d.agents.get? agent = some a) (labels : KeyMap String) (c : WorkloadCommand) :
    c ∈ (d.enroll agent labels).1 ↔ ∃ k w, d.definitions.get? k = some w ∧
      w.spec.selects labels = true ∧ w.spec.selects a.labels = false ∧ c = w.syncCommand := by
  have hadded : ∀ k w, d.definitions.get? k = some w →
      (isAdded a labels (k, w) = true ↔ w.spec.selects labels = true ∧ w.spec.selects a.labels = false) := by
    intro k w hw
    rw [isAdded, KeyMap.contains_eq, h.selected agent a ha, get?_selected, hw]
    cases hold : w.spec.selects a.labels <;> simp [Option.filter, hold]
  rw [enroll, ha]
  by_cases hlabels : a.labels = labels
  · simp only [hlabels, ite_true, List.not_mem_nil, false_iff]
    rintro ⟨k, w, -, hnew, hold, -⟩
    rw [hnew] at hold
    cases hold
  · simp only [hlabels, ite_false, List.mem_map, List.mem_filter]
    constructor
    · rintro ⟨⟨k, w⟩, ⟨hmem, hnew⟩, rfl⟩
      have hw := (KeyMap.mem_toList _).mp hmem
      exact ⟨k, w, hw, ((hadded k w hw).mp hnew).1, ((hadded k w hw).mp hnew).2, rfl⟩
    · rintro ⟨k, w, hw, hnew, hold, rfl⟩
      exact ⟨(k, w), ⟨(KeyMap.mem_toList _).mpr hw, (hadded k w hw).mpr ⟨hnew, hold⟩⟩, rfl⟩

/-- The batch for an agent that was known fits its new labels unless the old labels select something that
the new ones do not and the agent does not report, or the agent reports something that only the new ones
select. -/
theorem batch_fits_iff {d : Desired} (h : d.Consistent) {r : Heartbeat} {a : DesiredAgent}
    (ha : d.agents.get? r.name = some a) (now : Timestamp) :
    (∀ c ∈ d.batch r now, c.Fits (d.selected r.labels)) ↔
      (∀ k w, d.definitions.get? k = some w → w.spec.selects a.labels = true →
        w.spec.selects r.labels = false →
          ((Observed.byKey r.pods).get? k).map (·.hash) = some w.spec.hash) ∧
      ∀ p ∈ r.pods, ∀ w, d.definitions.get? p.key = some w → w.spec.selects r.labels = true →
        w.spec.selects a.labels = true := by
  have hworkloads := h.selected r.name a ha
  simp only [batch, List.mem_append, mem_diff_iff ha, mem_enroll_of_known h ha, hworkloads,
    get?_selected_eq_some]
  constructor
  · intro hfits
    refine ⟨fun k w hw hold hnew => ?_, fun p hp w hw hnew => ?_⟩
    · by_contra hreported
      have hfit := hfits _ (.inl (.inl ⟨k, w, ⟨hw, hold⟩, hreported, rfl⟩))
      rw [h.fits_syncCommand_iff hw, hnew] at hfit
      cases hfit
    · by_contra hold
      have hnone : (d.selected a.labels).get? p.key = none := by
        rw [get?_selected_eq_none_iff]
        intro v hv
        rw [hw] at hv
        exact Option.some.inj hv ▸ (Bool.not_eq_true _).mp hold
      have hfit := hfits _ (.inl (.inr ⟨p, hp, hnone, rfl⟩))
      rw [WorkloadCommand.fits_delete_iff, get?_selected_eq_none_iff] at hfit
      rw [hfit w hw] at hnew
      cases hnew
  · rintro ⟨hdropped, hreported⟩ c
      ((⟨k, w, ⟨hw, hold⟩, hmissing, rfl⟩ | ⟨p, hp, hnone, rfl⟩) | ⟨k, w, hw, hnew, -, rfl⟩)
    · rw [h.fits_syncCommand_iff hw]
      by_contra hnew
      exact hmissing (hdropped k w hw hold ((Bool.not_eq_true _).mp hnew))
    · rw [WorkloadCommand.fits_delete_iff, get?_selected_eq_none_iff]
      intro w hw
      by_contra hnew
      have hold := hreported p hp w hw ((Bool.not_eq_false _).mp hnew)
      rw [(d.get?_selected_eq_none_iff a.labels p.key).mp hnone w hw] at hold
      cases hold
    · exact (h.fits_syncCommand_iff hw _).mpr hnew

end Desired

namespace Fleet

/-! ## Accepted reports -/

theorem consume_of_accepted {f : Fleet} {r : Heartbeat}
    (haccepted : Filter.judge (f.filter.get? r.name) (.ofHeartbeat r) = .accepted) (now : Timestamp) :
    (f.consume r now).1 = .accepted (f.registry.receive r now).1 (f.desired.batch r now) ∧
      (f.consume r now).2.desired = (f.desired.enroll r.name r.labels).2 := by
  have hconsume : f.consume r now = f.countReceived.judge r now := rfl
  have haccepted' : Filter.judge (f.countReceived.filter.get? r.name) (.ofHeartbeat r) = .accepted :=
    haccepted
  rw [hconsume, judge_of_accepted haccepted']
  exact ⟨rfl, rfl⟩

theorem accepted_of_consume {f : Fleet} {r : Heartbeat} {now : Timestamp} {arrival : Arrival}
    {commands : List WorkloadCommand} (h : (f.consume r now).1 = .accepted arrival commands) :
    Filter.judge (f.filter.get? r.name) (.ofHeartbeat r) = .accepted := by
  by_contra hstale
  have hstale' : Filter.judge (f.countReceived.filter.get? r.name) (.ofHeartbeat r) ≠ .accepted := hstale
  have hconsume : f.consume r now = f.countReceived.judge r now := rfl
  rw [hconsume, judge_of_stale hstale'] at h
  cases h

/-- In every state that a fleet reaches, the commands for a report that passes fit what is desired of its
agent afterwards if the agent is new or gives the labels of its last report. If it gives others, they fit
unless a definition that only the old labels select is not reported in its version, or a workload is
reported that only the new labels select. Commands that fit never bring and remove the same workload. -/
theorem commands_fit_iff {ds : List Delivery} {f : Fleet} (h : Reached ds f) {r : Heartbeat}
    {now : Timestamp} {arrival : Arrival} {commands : List WorkloadCommand}
    (haccepted : (f.consume r now).1 = .accepted arrival commands) :
    ∃ desired, (f.consume r now).2.desired.workloads? r.name = some desired ∧
      ((∀ c ∈ commands, c.Fits desired) ↔ ∀ e, f.registry.get? r.name = some e →
        (∀ k w, f.desired.definitions.get? k = some w → w.spec.selects e.record.labels = true →
          w.spec.selects r.labels = false →
            ((Observed.byKey r.pods).get? k).map (·.hash) = some w.spec.hash) ∧
        ∀ p ∈ r.pods, ∀ w, f.desired.definitions.get? p.key = some w →
          w.spec.selects r.labels = true → w.spec.selects e.record.labels = true) ∧
      ((∀ e, f.registry.get? r.name = some e → e.record.labels = r.labels) →
        ∀ c ∈ commands, c.Fits desired) ∧
      ((∀ c ∈ commands, c.Fits desired) →
        ∀ c ∈ commands, ∀ c' ∈ commands, c.isDelete = true → c'.isDelete = false → c.key ≠ c'.key) := by
  have hf := h.coherent
  obtain ⟨houtcome, hdesired⟩ := consume_of_accepted (accepted_of_consume haccepted) now
  rw [haccepted] at houtcome
  cases houtcome
  have hiff : (∀ c ∈ f.desired.batch r now, c.Fits (f.desired.selected r.labels)) ↔
      ∀ e, f.registry.get? r.name = some e →
        (∀ k w, f.desired.definitions.get? k = some w → w.spec.selects e.record.labels = true →
          w.spec.selects r.labels = false →
            ((Observed.byKey r.pods).get? k).map (·.hash) = some w.spec.hash) ∧
        ∀ p ∈ r.pods, ∀ w, f.desired.definitions.get? p.key = some w →
          w.spec.selects r.labels = true → w.spec.selects e.record.labels = true := by
    have hlabels : f.desired.labels.get? r.name = (f.registry.get? r.name).map (·.record.labels) := by
      rw [hf.labels, KeyMap.get?_map]
      rfl
    rw [Desired.get?_labels] at hlabels
    cases ha : f.desired.agents.get? r.name with
    | none =>
        rw [ha, Option.map_none, eq_comm, Option.map_eq_none_iff] at hlabels
        rw [hlabels]
        simp only [Desired.mem_batch_of_unknown ha]
        refine iff_of_true ?_ nofun
        rintro c ⟨k, w, hw, hselects, rfl⟩
        exact (hf.desired.fits_syncCommand_iff hw _).mpr hselects
    | some a =>
        rw [ha, Option.map_some, eq_comm, Option.map_eq_some_iff] at hlabels
        obtain ⟨e, he, hlabels⟩ := hlabels
        rw [he, Desired.batch_fits_iff hf.desired ha, ← hlabels]
        exact ⟨fun hfits e' he' => Option.some.inj he' ▸ hfits, fun hfits => hfits e rfl⟩
  refine ⟨f.desired.selected r.labels, ?_, hiff, fun hsame => hiff.mpr fun e he => ?_, ?_⟩
  · rw [hdesired, Desired.enroll_snd hf.desired, Desired.workloads?, KeyMap.get?_insert_self, Option.map_some]
  · rw [hsame e he]
    refine ⟨fun k w _ hold hnew => ?_, fun _ _ _ _ hnew => hnew⟩
    rw [hold] at hnew
    cases hnew
  · exact fun hfits c hc c' hc' => (hfits c hc).key_ne (hfits c' hc')

/-- An agent moves from one zone to the other and reports what it ran in the first. -/
theorem commands_fit_iff_reported :
    let east : WorkloadDefinition := ⟨"east", "fleet", "nginx", [], ∅, .ofList [("zone", "east")]⟩
    let west : WorkloadDefinition := ⟨"west", "fleet", "caddy", [], ∅, .ofList [("zone", "west")]⟩
    let r : Heartbeat :=
      { Heartbeat.ofName "a" with
        seqnum := 2, labels := .ofList [("zone", "east")]
        pods := [⟨west.spec.hash, west.workloadName, west.ns, some .running⟩] }
    let f := (ofDefinitions [east, west] .epoch).after
      (.consume { Heartbeat.ofName "a" with seqnum := 1, labels := .ofList [("zone", "west")] } .epoch)
    ∃ arrival desired, (f.consume r .epoch).1 = .accepted arrival [east.syncCommand] ∧
      (f.consume r .epoch).2.desired.workloads? "a" = some desired ∧ east.syncCommand.Fits desired := by
  intro east west r f
  have haccepted : (f.consume r .epoch).1 = .accepted .rejoined [east.syncCommand] := by decide +kernel
  have hdefinitions : f.desired.definitions.toList = [(east.key, east), (west.key, west)] := by
    decide +kernel
  obtain ⟨desired, hdesired, hiff, -⟩ := commands_fit_iff ((Reached.start _ _).call (.consume _ _)) haccepted
  refine ⟨.rejoined, desired, haccepted, hdesired, hiff.mpr (fun e he => ⟨fun k w hw hold hnew => ?_, ?_⟩) _
    (List.mem_singleton_self _)⟩
  · have hmem := (KeyMap.mem_toList _).mpr hw
    rw [hdefinitions, List.mem_pair] at hmem
    obtain ⟨rfl, rfl⟩ | ⟨rfl, rfl⟩ := hmem
    · exact absurd hnew (by decide +kernel)
    · decide +kernel
  · intro p hp w hw hnew
    obtain rfl := List.mem_singleton.mp hp
    have hwest : f.desired.definitions.get? west.key = some west := by decide +kernel
    obtain rfl : west = w := Option.some.inj (hwest.symm.trans hw)
    exact absurd hnew (by decide +kernel)

/-- The commands for a report can bring a workload that is not desired afterwards: an agent moves from one
zone to the other before it ran anything. -/
theorem commands_can_contradict :
    ¬∀ (ds : List Delivery) (f : Fleet), Reached ds f → ∀ (r : Heartbeat) (now : Timestamp)
      (arrival : Arrival) (commands : List WorkloadCommand),
      (f.consume r now).1 = .accepted arrival commands →
        ∃ desired, (f.consume r now).2.desired.workloads? r.name = some desired ∧
          ∀ c ∈ commands, c.Fits desired := by
  intro h
  let east : WorkloadDefinition := ⟨"east", "fleet", "nginx", [], ∅, .ofList [("zone", "east")]⟩
  let west : WorkloadDefinition := ⟨"west", "fleet", "caddy", [], ∅, .ofList [("zone", "west")]⟩
  let r : Heartbeat := { Heartbeat.ofName "a" with seqnum := 2, labels := .ofList [("zone", "east")] }
  let f := (ofDefinitions [east, west] .epoch).after
    (.consume { Heartbeat.ofName "a" with seqnum := 1, labels := .ofList [("zone", "west")] } .epoch)
  have haccepted : (f.consume r .epoch).1 = .accepted .rejoined [west.syncCommand, east.syncCommand] := by
    decide +kernel
  obtain ⟨desired, hdesired, hfits⟩ :=
    h _ f ((Reached.start _ _).call (.consume _ _)) r .epoch _ _ haccepted
  have hafter : (f.consume r .epoch).2.desired.workloads? "a" = some (.ofList [(east.key, east)]) := by
    decide +kernel
  obtain rfl : desired = .ofList [(east.key, east)] := Option.some.inj (hdesired.symm.trans hafter)
  have hwest : (KeyMap.ofList [(east.key, east)]).get? west.syncCommand.key = none := by decide +kernel
  obtain ⟨w, hw, -⟩ : ∃ w, (KeyMap.ofList [(east.key, east)]).get? west.syncCommand.key = some w ∧ _ :=
    hfits west.syncCommand (List.mem_cons_self ..)
  rw [hwest] at hw
  cases hw

end Fleet

end EdgeFleet
