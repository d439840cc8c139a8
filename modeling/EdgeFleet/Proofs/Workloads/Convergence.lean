import EdgeFleet.Proofs.Workloads.Local
import EdgeFleet.Proofs.Workloads.Selection

/-! # One round brings an agent to what it is to run

The difference between what an agent reports and what it is to run is empty exactly when the two
agree. Its commands concern different keys, so they may be applied in any order and repeatedly.
-/

namespace EdgeFleet

/-- The same keys, each in the desired version. -/
def LocalWorkloads.Matches (ws : LocalWorkloads) (desired : KeyMap WorkloadDefinition) : Prop :=
  ∀ k, (ws.get? k).map (·.hash) = (desired.get? k).map (·.spec.hash)

namespace Desired

/-! ## The commands of a difference -/

/-- A command for a report: a sync for a desired workload that is missing or outdated, a delete for a
reported one that is not desired. -/
inductive Correction (desired : KeyMap WorkloadDefinition) (ws : LocalWorkloads) (now : Timestamp) :
    WorkloadCommand → Prop where
  | sync (k w) (hw : desired.get? k = some w)
      (hold : (ws.get? k).map (·.hash) ≠ some w.spec.hash) :
      Correction desired ws now w.syncCommand
  | delete (k w) (hw : ws.get? k = some w) (hnone : desired.get? k = none) :
      Correction desired ws now (.delete w.hash w.name w.ns now)

theorem isOutdated_iff (reported : KeyMap WorkloadSummary) (k : String) (w : WorkloadDefinition) :
    isOutdated reported (k, w) = true ↔ (reported.get? k).map (·.hash) ≠ some w.spec.hash := by
  rw [isOutdated]
  cases reported.get? k <;> simp

/-- The commands for an agent that is known, whatever it reports. -/
theorem mem_diff_iff {d : Desired} {agent : String} {a : DesiredAgent} (ha : d.agents.get? agent = some a)
    (pods : List WorkloadSummary) (now : Timestamp) (c : WorkloadCommand) :
    c ∈ d.diff agent pods now ↔
      (∃ k w, a.workloads.get? k = some w ∧
        ((KeyMap.ofList (pods.map fun p => (p.key, p))).get? k).map (·.hash) ≠ some w.spec.hash ∧
          c = w.syncCommand) ∨
      ∃ p ∈ pods, a.workloads.get? p.key = none ∧ c = .delete p.hash p.name p.ns now := by
  rw [diff, ha]
  simp only [List.mem_append, List.mem_map, List.mem_filter]
  constructor
  · rintro (⟨⟨k, w⟩, ⟨hmem, hold⟩, rfl⟩ | ⟨p, ⟨hmem, hfree⟩, rfl⟩)
    · exact .inl ⟨k, w, (KeyMap.mem_toList _).mp hmem, (isOutdated_iff _ k w).mp hold, rfl⟩
    · exact .inr ⟨p, hmem, by simpa [KeyMap.contains_eq] using hfree, rfl⟩
  · rintro (⟨k, w, hw, hold, rfl⟩ | ⟨p, hmem, hfree, rfl⟩)
    · exact .inl ⟨(k, w), ⟨(KeyMap.mem_toList _).mpr hw, (isOutdated_iff _ k w).mpr hold⟩, rfl⟩
    · exact .inr ⟨p, ⟨hmem, by simpa [KeyMap.contains_eq] using hfree⟩, rfl⟩

theorem mem_diff {d : Desired} {agent : String} {desired : KeyMap WorkloadDefinition}
    (hd : d.workloads? agent = some desired) {ws : LocalWorkloads} (hws : ws.Filed)
    (now : Timestamp) (c : WorkloadCommand) :
    c ∈ d.diff agent ws.summaries now ↔ Correction desired ws now c := by
  rw [workloads?, Option.map_eq_some_iff] at hd
  obtain ⟨a, ha, rfl⟩ := hd
  have hreported : ∀ k, ((ws.byKey.map fun _ l => l.summary).get? k).map (·.hash) =
      (ws.get? k).map (·.hash) := by
    intro k
    rw [KeyMap.get?_map, Option.map_map]
    rfl
  simp only [mem_diff_iff ha, LocalWorkloads.ofList_summaries hws, hreported]
  constructor
  · rintro (⟨k, w, hw, hold, rfl⟩ | ⟨p, hmem, hfree, rfl⟩)
    · exact .sync k w hw hold
    · obtain ⟨k, l, hl, rfl⟩ := LocalWorkloads.mem_summaries.mp hmem
      have hkey : l.summary.key = k := hws k l hl
      exact .delete k l hl (hkey ▸ hfree)
  · rintro (⟨k, w, hw, hold⟩ | ⟨k, l, hl, hnone⟩)
    · exact .inl ⟨k, w, hw, hold, rfl⟩
    · have hkey : l.summary.key = k := hws k l hl
      exact .inr ⟨l.summary, LocalWorkloads.mem_summaries.mpr ⟨k, l, hl, rfl⟩, hkey ▸ hnone, rfl⟩

/-- There is nothing to correct exactly when report and desire agree. -/
theorem diff_eq_nil_iff {d : Desired} {agent : String} {desired : KeyMap WorkloadDefinition}
    (hd : d.workloads? agent = some desired) {ws : LocalWorkloads} (hws : ws.Filed)
    (now : Timestamp) : d.diff agent ws.summaries now = [] ↔ ws.Matches desired := by
  rw [List.eq_nil_iff_forall_not_mem]
  simp only [mem_diff hd hws]
  constructor
  · intro h k
    cases hk : desired.get? k with
    | none =>
        cases hl : ws.get? k with
        | none => rfl
        | some l => exact absurd (.delete k l hl hk) (h _)
    | some w =>
        by_contra hne
        exact h _ (.sync k w hk hne)
  · rintro h c (⟨k, w, hw, hold⟩ | ⟨k, l, hl, hnone⟩)
    · exact hold (by rw [h k, hw, Option.map_some])
    · have hmatch := h k
      rw [hl, hnone] at hmatch
      cases hmatch

/-! ## Applying them -/

/-- A correction leaves what is desired under its key. -/
theorem Correction.outcome {desired : KeyMap WorkloadDefinition}
    (hfiled : ∀ k w, desired.get? k = some w → w.key = k) {ws : LocalWorkloads} (hws : ws.Filed)
    {now : Timestamp} {c : WorkloadCommand} (hc : Correction desired ws now c) :
    (LocalWorkloads.outcome c).map (·.hash) = (desired.get? c.key).map (·.spec.hash) := by
  cases hc with
  | sync k w hw hold =>
      have hkey : w.syncCommand.key = k := hfiled k w hw
      rw [hkey, hw]
      rfl
  | delete k l hl hnone =>
      have hkey : (WorkloadCommand.delete l.hash l.name l.ns now).key = k := hws k l hl
      rw [hkey, hnone]
      rfl

/-- A key that no correction concerns is as desired already. -/
theorem get?_of_no_correction {desired : KeyMap WorkloadDefinition}
    (hfiled : ∀ k w, desired.get? k = some w → w.key = k) {ws : LocalWorkloads} (hws : ws.Filed)
    {now : Timestamp} {k : String} (h : ∀ c, Correction desired ws now c → c.key ≠ k) :
    (ws.get? k).map (·.hash) = (desired.get? k).map (·.spec.hash) := by
  cases hk : desired.get? k with
  | none =>
      cases hl : ws.get? k with
      | none => rfl
      | some l => exact absurd (hws k l hl) (h _ (.delete k l hl hk))
  | some w =>
      by_contra hne
      exact h _ (.sync k w hk hne) (hfiled k w hk)

/-- Corrections applied in any order, each at least once, lead to what is desired. -/
theorem matches_applyAll {desired : KeyMap WorkloadDefinition}
    (hfiled : ∀ k w, desired.get? k = some w → w.key = k) {ws : LocalWorkloads} (hws : ws.Filed)
    {now : Timestamp} {batch : List WorkloadCommand}
    (hbatch : ∀ c, c ∈ batch ↔ Correction desired ws now c) :
    (ws.applyAll batch).Matches desired := by
  intro k
  rw [LocalWorkloads.get?_applyAll]
  cases hlast : batch.reverse.find? fun c => c.key = k with
  | some c =>
      have hkey : c.key = k := by simpa using List.find?_some hlast
      have hmem : c ∈ batch := List.mem_reverse.mp (List.mem_of_find?_eq_some hlast)
      rw [← hkey]
      exact ((hbatch c).mp hmem).outcome hfiled hws
  | none =>
      apply get?_of_no_correction hfiled hws
      intro c hc
      have hmem : c ∈ batch.reverse := List.mem_reverse.mpr ((hbatch c).mpr hc)
      simpa using List.find?_eq_none.mp hlast c hmem

/-! ## Convergence -/

/-- The workloads of an agent are filed under their own keys. -/
theorem Consistent.workloads_filed {d : Desired} (h : d.Consistent) {agent : String}
    {desired : KeyMap WorkloadDefinition} (hd : d.workloads? agent = some desired) :
    ∀ k w, desired.get? k = some w → w.key = k := by
  intro k w hw
  rw [workloads?, Option.map_eq_some_iff] at hd
  obtain ⟨a, ha, rfl⟩ := hd
  rw [h.selected agent a ha, get?_selected_eq_some] at hw
  exact h.filed k w hw.1

/-- Whatever definitions and labels came before, and whatever commands an agent has received: a report
of it needs no command exactly when the agent has the desired keys in the desired versions, and the
commands it needs lead there, in any order and however often each is repeated. -/
theorem diff_converges (ws : List WorkloadDefinition) (start : Timestamp) (cs : List Change)
    (received : List WorkloadCommand) {agent : String} {desired : KeyMap WorkloadDefinition}
    (hknown : ((ofDefinitions ws start).changeAll cs).workloads? agent = some desired)
    (now : Timestamp) :
    let d := (ofDefinitions ws start).changeAll cs
    let running := LocalWorkloads.empty.applyAll received
    (d.diff agent running.summaries now = [] ↔ running.Matches desired) ∧
      ∀ batch : List WorkloadCommand,
        (∀ c, c ∈ batch ↔ c ∈ d.diff agent running.summaries now) →
        (running.applyAll batch).Matches desired ∧
          ∀ later, d.diff agent (running.applyAll batch).summaries later = [] := by
  intro d running
  have hfiled := ((consistent_ofDefinitions ws start).changeAll cs).workloads_filed hknown
  have hrunning : running.Filed := LocalWorkloads.filed_empty.applyAll received
  refine ⟨diff_eq_nil_iff hknown hrunning now, ?_⟩
  intro batch hbatch
  have hmatches : (running.applyAll batch).Matches desired := by
    apply matches_applyAll hfiled hrunning
    intro c
    rw [hbatch c, mem_diff hknown hrunning]
  refine ⟨hmatches, ?_⟩
  intro later
  exact (diff_eq_nil_iff hknown (hrunning.applyAll batch) later).mpr hmatches

/-- An agent that runs a workload of its own and lacks the desired one gets there with the commands
in reverse order, followed by all of them again. -/
theorem diff_converges_rogue :
    let web : WorkloadDefinition := ⟨"web", "fleet", .ofImage "nginx"⟩
    let d := (ofDefinitions [web] .epoch).changeAll [.enroll "a" ∅]
    let running := LocalWorkloads.empty.applyAll [.sync "h" "rogue" "ns" (.ofImage "img")]
    let batch := d.diff "a" running.summaries .epoch
    d.workloads? "a" = some (KeyMap.ofList [(web.key, web)]) ∧
      (running.applyAll (batch.reverse ++ batch)).Matches (KeyMap.ofList [(web.key, web)]) ∧
      ∀ later, d.diff "a" (running.applyAll (batch.reverse ++ batch)).summaries later = [] := by
  intro web d running batch
  have hknown : d.workloads? "a" = some (KeyMap.ofList [(web.key, web)]) := by decide +kernel
  refine ⟨hknown, ?_⟩
  have hconverges := diff_converges [web] .epoch [.enroll "a" ∅]
    [.sync "h" "rogue" "ns" (.ofImage "img")] hknown .epoch
  exact hconverges.2 (batch.reverse ++ batch) (by simp [batch, running, d])

end Desired

end EdgeFleet
