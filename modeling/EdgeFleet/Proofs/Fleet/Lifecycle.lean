import EdgeFleet.Fleet.Registry
import EdgeFleet.KeyMap.Lemmas
import Mathlib.Data.List.Induction

/-! # The life of an agent in the registry

Reports make an agent registering, sweeps bring it from there to registered and later to offline. Each
time it is registered it is acknowledged once, with the report that it sent last. All this does not depend on
the times; whether a sweep can hand out what it has collected does.
-/

namespace EdgeFleet.Registry

variable {τ : Type}

/-! ## Names -/

/-- Every entry is filed under the name in its report. -/
def Filed (r : Registry τ) : Prop := ∀ agent e, r.get? agent = some e → e.record.name = agent

theorem filed_empty : (empty : Registry τ).Filed := by
  intro agent e he
  simp [empty, get?] at he

/-- The names in the reports are the keys. -/
theorem Filed.map_name {r : Registry τ} (h : r.Filed) :
    r.agents.values.map (·.record.name) = r.agents.keys := by
  rw [KeyMap.values, KeyMap.keys, List.map_map]
  apply List.map_congr_left
  intro entry hentry
  exact h entry.1 entry.2 ((KeyMap.mem_toList _).mp hentry)

theorem Filed.mem_values {r : Registry τ} (h : r.Filed) {e : AgentEntry τ} :
    e ∈ r.agents.values ↔ r.get? e.record.name = some e := by
  rw [KeyMap.mem_values]
  constructor
  · rintro ⟨agent, he⟩
    rwa [h agent e he]
  · intro he
    exact ⟨e.record.name, he⟩

/-! ## Reports -/

theorem get?_receive (r : Registry τ) (h : Heartbeat) (now : τ) (agent : String) :
    (r.receive h now).2.get? agent =
      if agent = h.name then
        some ⟨{ h with state := stateAfter (r.get? h.name) h }, now⟩
      else r.get? agent :=
  r.agents.get?_insert ..

theorem Filed.receive {r : Registry τ} (hr : r.Filed) (h : Heartbeat) (now : τ) :
    (r.receive h now).2.Filed := by
  intro agent e he
  rw [get?_receive] at he
  split at he
  · next hname =>
    cases he
    exact hname.symm
  · exact hr agent e he

theorem dueAck?_eq_some {e : AgentEntry τ} {k : Ack} :
    dueAck? e = some k ↔
      e.record.state = .registering ∧ k = ⟨e.record.identifier, true, e.record.name⟩ := by
  rw [dueAck?]
  split
  · next h => simp [h, eq_comm]
  · next h => simp [h]

theorem map_agent_dueAcks (es : List (AgentEntry τ)) :
    (es.filterMap dueAck?).map (·.agent) =
      (es.filter fun e => e.record.state = .registering).map (·.record.name) := by
  induction es with
  | nil => rfl
  | cons e es ih =>
      by_cases h : e.record.state = .registering
      · simp [dueAck?, h, ih]
      · simp [dueAck?, h, ih]

/-! ## Sweeps -/

variable [Clock τ]

section

variable (r : Registry τ) (limit : Nat) (now : τ)

theorem get?_sweepAfter (agent : String) :
    (r.sweepAfter limit now).registry.get? agent = (r.get? agent).map (sweepEntry limit now) :=
  r.agents.get?_map ..

theorem stateOf?_sweepAfter (agent : String) :
    (r.sweepAfter limit now).registry.stateOf? agent = (r.get? agent).map (sweptState limit now) := by
  rw [stateOf?, get?_sweepAfter, Option.map_map]
  rfl

theorem sweptState_eq_offline_iff (e : AgentEntry τ) :
    sweptState limit now e = .offline ↔
      e.record.state = .offline ∨ isOverdue limit now e = true := by
  cases hstate : e.record.state <;> simp [sweptState, isOverdue, hstate]

theorem sweptState_ne_registering (e : AgentEntry τ) : sweptState limit now e ≠ .registering := by
  rw [sweptState]
  split
  · decide
  · split <;> decide
  · decide

theorem isOverdue_iff (e : AgentEntry τ) :
    isOverdue limit now e = true ↔
      e.record.state = .registered ∧ limit ≤ Clock.since now e.lastSeen := by
  rw [isOverdue, decide_eq_true_iff, silence]

variable {r}

theorem Filed.sweepAfter (hr : r.Filed) : (r.sweepAfter limit now).registry.Filed := by
  intro agent e he
  rw [get?_sweepAfter, Option.map_eq_some_iff] at he
  obtain ⟨before, hbefore, rfl⟩ := he
  exact hr agent before hbefore

end

/-- What a sweep of `r` does: who is acknowledged, who goes offline, and who is left in which state. -/
structure SweepSpec (r : Registry τ) (limit : Nat) (now : τ) (s : Sweep τ) : Prop where
  acks : ∀ k, k ∈ s.acks ↔ ∃ e, r.get? k.agent = some e ∧ e.record.state = .registering ∧
    k.identifier = e.record.identifier ∧ k.accepted = true
  once : (s.acks.map (·.agent)).Nodup
  offline : ∀ agent, s.registry.stateOf? agent = some .offline ↔
    r.stateOf? agent = some .offline ∨ agent ∈ s.wentOffline
  wentOffline : ∀ agent, agent ∈ s.wentOffline ↔ ∃ e, r.get? agent = some e ∧
    e.record.state = .registered ∧ limit ≤ Clock.since now e.lastSeen
  wentOnce : s.wentOffline.Nodup
  registered : ∀ agent, s.registry.stateOf? agent = some .registered ↔
    r.stateOf? agent = some .registering ∨
      r.stateOf? agent = some .registered ∧ agent ∉ s.wentOffline
  settled : ∀ agent, s.registry.stateOf? agent ≠ some .registering

theorem Filed.mem_acks {r : Registry τ} (hr : r.Filed) (limit : Nat) (now : τ) (k : Ack) :
    k ∈ (r.sweepAfter limit now).acks ↔ ∃ e, r.get? k.agent = some e ∧
      e.record.state = .registering ∧ k.identifier = e.record.identifier ∧ k.accepted = true := by
  simp only [Registry.sweepAfter, List.mem_filterMap, dueAck?_eq_some]
  constructor
  · rintro ⟨e, he, hstate, rfl⟩
    exact ⟨e, hr.mem_values.mp he, hstate, rfl, rfl⟩
  · rintro ⟨e, he, hstate, hidentifier, haccepted⟩
    have hname : e.record.name = k.agent := hr _ e he
    refine ⟨e, hr.mem_values.mpr (by rwa [hname]), hstate, ?_⟩
    rw [hname, ← hidentifier, ← haccepted]

theorem Filed.mem_wentOffline {r : Registry τ} (hr : r.Filed) (limit : Nat) (now : τ)
    (agent : String) :
    agent ∈ (r.sweepAfter limit now).wentOffline ↔ ∃ e, r.get? agent = some e ∧
      isOverdue limit now e = true := by
  simp only [Registry.sweepAfter, List.mem_map, List.mem_filter]
  constructor
  · rintro ⟨e, ⟨he, hoverdue⟩, rfl⟩
    exact ⟨e, hr.mem_values.mp he, hoverdue⟩
  · rintro ⟨e, he, hoverdue⟩
    have hname : e.record.name = agent := hr agent e he
    exact ⟨e, ⟨hr.mem_values.mpr (by rwa [hname]), hoverdue⟩, hname⟩

theorem Filed.sweepSpec {r : Registry τ} (hr : r.Filed) (limit : Nat) (now : τ) :
    r.SweepSpec limit now (r.sweepAfter limit now) where
  acks := hr.mem_acks limit now
  once := by
    rw [Registry.sweepAfter, map_agent_dueAcks]
    have hkeys : (r.agents.values.map (·.record.name)).Nodup := hr.map_name ▸ r.agents.nodup_keys
    exact hkeys.sublist (List.filter_sublist.map _)
  offline := by
    intro agent
    rw [stateOf?_sweepAfter, hr.mem_wentOffline, stateOf?]
    cases r.get? agent with
    | none => simp
    | some e => simp [sweptState_eq_offline_iff]
  wentOffline := by
    intro agent
    simp only [hr.mem_wentOffline, isOverdue_iff]
  wentOnce := by
    have hkeys : (r.agents.values.map (·.record.name)).Nodup := hr.map_name ▸ r.agents.nodup_keys
    exact hkeys.sublist (List.filter_sublist.map _)
  registered := by
    intro agent
    rw [stateOf?_sweepAfter, hr.mem_wentOffline, stateOf?]
    cases r.get? agent with
    | none => simp
    | some e => cases hstate : e.record.state <;> simp [sweptState, hstate]
  settled := by
    intro agent
    rw [stateOf?_sweepAfter]
    cases r.get? agent with
    | none => simp
    | some e => simpa using sweptState_ne_registering limit now e

/-! ## Runs -/

inductive Event (τ : Type) where
  | receive (h : Heartbeat) (now : τ)
  /-- The limit of silence is in nanoseconds. -/
  | sweep (limit : Nat) (now : τ)

/-- The registry after a call, whether or not it hands something out. -/
def after (r : Registry τ) : Event τ → Registry τ
  | .receive h now => (r.receive h now).2
  | .sweep limit now => (r.handOut limit now).2

def afterAll (r : Registry τ) (es : List (Event τ)) : Registry τ := es.foldl after r

theorem afterAll_append (r : Registry τ) (es es' : List (Event τ)) :
    r.afterAll (es ++ es') = (r.afterAll es).afterAll es' :=
  List.foldl_append

theorem Filed.after {r : Registry τ} (hr : r.Filed) (e : Event τ) : (r.after e).Filed := by
  cases e with
  | receive h now => exact hr.receive h now
  | sweep limit now => exact hr.sweepAfter limit now

theorem Filed.afterAll {r : Registry τ} (hr : r.Filed) (es : List (Event τ)) : (r.afterAll es).Filed := by
  induction es generalizing r with
  | nil => exact hr
  | cons e es ih => exact ih (hr.after e)

/-! ### Changes of state -/

end EdgeFleet.Registry
