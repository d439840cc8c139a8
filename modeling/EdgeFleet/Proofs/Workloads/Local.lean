import EdgeFleet.Agent.Workloads
import EdgeFleet.KeyMap.Lemmas
import Mathlib.Data.List.Induction

/-! # What a series of commands leaves on an agent

For each key the last command counts, whatever came before it and between.
-/

namespace EdgeFleet.LocalWorkloads

/-- What is under the key of a command after it. -/
def outcome (c : WorkloadCommand) : Option LocalWorkload :=
  if c.isDelete then none else some (.ofCommand c)

def applyAll (ws : LocalWorkloads) (cs : List WorkloadCommand) : LocalWorkloads :=
  cs.foldl (fun ws c => (ws.apply c).2) ws

theorem applyAll_append (ws : LocalWorkloads) (cs cs' : List WorkloadCommand) :
    ws.applyAll (cs ++ cs') = (ws.applyAll cs).applyAll cs' :=
  List.foldl_append

theorem get?_apply (ws : LocalWorkloads) (c : WorkloadCommand) (k : String) :
    (ws.apply c).2.get? k = if k = c.key then outcome c else ws.get? k := by
  simp only [apply, get?, outcome]
  cases c.isDelete with
  | true => simp [KeyMap.get?_erase]
  | false => simp [KeyMap.get?_insert]

/-- The last command of a key decides what is under it. -/
theorem get?_applyAll (ws : LocalWorkloads) (cs : List WorkloadCommand) (k : String) :
    (ws.applyAll cs).get? k =
      match cs.reverse.find? fun c => c.key = k with
      | some c => outcome c
      | none => ws.get? k := by
  induction cs using List.reverseRecOn with
  | nil => rfl
  | append_singleton cs c ih =>
      rw [applyAll_append, applyAll, List.foldl_cons, List.foldl_nil, get?_apply,
        List.reverse_append, List.reverse_singleton, List.singleton_append]
      by_cases hk : c.key = k
      · rw [List.find?_cons_of_pos (by simpa using hk), if_pos hk.symm]
      · rw [List.find?_cons_of_neg (by simpa using hk), if_neg (Ne.symm hk), ih]

/-! ## Keys -/

/-- Every workload is filed under the key of its own namespace and name. -/
def Filed (ws : LocalWorkloads) : Prop :=
  ∀ k w, ws.get? k = some w → workloadKey w.ns w.name = k

theorem filed_empty : empty.Filed := by
  intro k w hw
  simp [empty, get?] at hw

theorem Filed.apply {ws : LocalWorkloads} (h : ws.Filed) (c : WorkloadCommand) :
    (ws.apply c).2.Filed := by
  intro k w hw
  rw [get?_apply] at hw
  split at hw
  · next hk =>
    rw [outcome] at hw
    split at hw
    · cases hw
    · cases hw
      exact hk.symm
  · exact h k w hw

theorem Filed.applyAll {ws : LocalWorkloads} (h : ws.Filed) (cs : List WorkloadCommand) :
    (ws.applyAll cs).Filed := by
  induction cs generalizing ws with
  | nil => exact h
  | cons c cs ih => exact ih (h.apply c)

/-- What is reported, by key, is what is there. -/
theorem ofList_summaries {ws : LocalWorkloads} (h : ws.Filed) :
    KeyMap.ofList (ws.summaries.map fun p => (p.key, p)) = ws.byKey.map fun _ w => w.summary := by
  have hlist : (ws.summaries.map fun p => (p.key, p)) =
      (ws.byKey.map fun _ w => w.summary).toList := by
    rw [summaries, KeyMap.values, List.map_map, List.map_map]
    apply List.map_congr_left
    intro e he
    have hkey : workloadKey e.2.ns e.2.name = e.1 := h e.1 e.2 ((KeyMap.mem_toList _).mp he)
    simp [WorkloadSummary.key, LocalWorkload.summary, hkey]
  rw [hlist, KeyMap.ofList_toList]

theorem mem_summaries {ws : LocalWorkloads} {p : WorkloadSummary} :
    p ∈ ws.summaries ↔ ∃ k w, ws.get? k = some w ∧ p = w.summary := by
  simp only [summaries, List.mem_map, KeyMap.mem_values, get?]
  constructor
  · rintro ⟨w, ⟨k, hk⟩, rfl⟩
    exact ⟨k, w, hk, rfl⟩
  · rintro ⟨k, w, hk, rfl⟩
    exact ⟨w, ⟨k, hk⟩, rfl⟩

end EdgeFleet.LocalWorkloads
