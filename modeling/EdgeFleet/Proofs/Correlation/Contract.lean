import EdgeFleet.Proofs.Correlation.Fates
import EdgeFleet.Proofs.Correlation.Schedule

/-! # What those who wait can rely on -/

namespace EdgeFleet

/-- What those who call the store can rely on. -/
structure Correlation.Serves {α : Type} (c : Correlation α) : Prop where
  unserved : ∀ w ∈ c.waiters, c.get? w.key = none ∧ c.now < w.deadline
  serves : ∀ key value, (∃ w ∈ c.waiters, w.key = key) → ∃ before w after, w.key = key ∧
    c.waiters = before ++ w :: after ∧
      c.set key value = (some ⟨w.id, some value, c.now - w.since⟩, { c with waiters := before ++ after })
  takes : ∀ id key patience v, c.get? key = some v →
    c.wait id key patience = (some ⟨id, some v, 0⟩, { c with entries := c.entries.erase key })
  due : ∀ duration, ∀ e ∈ (c.advance duration).1, ∃ w ∈ c.waiters,
    e = ⟨w.id, none, w.deadline - w.since⟩ ∧ c.now < w.deadline ∧ w.deadline ≤ c.now + duration

namespace Waits

variable {σ : Type} [Signal σ] {α : Type} {clock : Waits σ α → Nat → Prop} {calls : List (Call α)}
  {log : List (Event α)} {s : Waits σ α}

theorem Shows.serves {c : Correlation α} (hshows : s.Shows c) (hs : s.Valid) : c.Serves := by
  have hunserved : ∀ w ∈ c.waiters, c.get? w.key = none ∧ c.now < w.deadline := fun w hw => by
    obtain ⟨hnone, hdeadline⟩ := hshows.settled.not_ends hs (hshows.waiters ▸ hw)
    rw [hshows.store] at hnone hdeadline
    exact ⟨hnone, hdeadline⟩
  refine ⟨hunserved, fun key value hwaited => ?_, fun id _ patience _ hv => ?_, fun duration e he => ?_⟩
  · cases hfind : c.waiters.find? fun w => w.key = key with
    | none =>
        obtain ⟨w, hw, hkey⟩ := hwaited
        exact absurd hkey (by simpa using List.find?_eq_none.mp hfind w hw)
    | some w =>
        obtain ⟨hkey, before, after, hwaiters, hbefore⟩ := List.find?_eq_some_iff_append.mp hfind
        obtain rfl : w.key = key := by simpa using hkey
        refine ⟨before, w, after, rfl, hwaiters, ?_⟩
        have hnone : c.entries.get? w.key = none :=
          Option.map_eq_none_iff.mp (hunserved w (List.mem_of_find?_eq_some hfind)).1
        rw [Correlation.set, hfind, KeyMap.erase_of_get? _ hnone, hwaiters,
          List.eraseP_append_right _ fun u hu => by simpa using hbefore u hu, List.eraseP_cons_of_pos (by simp)]
  · exact Correlation.wait_of_stored hv id patience
  · rw [Correlation.ended_advance] at he
    obtain ⟨w, hw, rfl⟩ := List.mem_map.mp he
    obtain ⟨hw, hdue⟩ := List.mem_filter.mp hw
    exact ⟨w, hw, rfl, (hunserved w hw).2, by simpa using hdue⟩

/-- What those who set and those who wait can rely on. -/
structure Contract (clock : Waits σ α → Nat → Prop) (log : List (Event α)) (s : Waits σ α) : Prop where
  accounted : Accounted log s
  rests : Leads (fun _ s' => s'.IsSettled) log s
  unserved : s.IsSettled → ∀ w ∈ s.waiters, s.store.get? w.key = none
  serves : s.IsSettled → ∀ key value, (∃ w ∈ s.waiters, w.key = key) →
    Leads (fun log' s' => s'.IsSettled ∧ ∃ es, log' = log ++ es ∧ s.HasServed key value es s')
      (log ++ (s.call (.set key value)).1) (s.call (.set key value)).2
  takes : ∀ id key patience v, s.store.get? key = some v → (∀ w ∈ s.waiters, w.key ≠ key) →
    Leads (fun log' s' => s'.IsSettled ∧ ∃ es, log' = log ++ es ∧
        .ended ⟨id, key, s.store.now, s.store.now + patience⟩ s.store.now (some v) ∈ es)
      (log ++ (s.call (.wait id key patience)).1) (s.call (.wait id key patience)).2
  due : ∀ w time, .ended w time none ∈ log → w.deadline ≤ time
  on_time : (∀ s duration, clock s duration → s.IsPunctual duration) →
    (∀ w ∈ s.waiters, s.store.now ≤ w.deadline) ∧ ∀ w time, .ended w time none ∈ log → time = w.deadline

variable [LawfulSignal σ]

theorem Reached.contract (h : Reached clock calls log s) : Contract clock log s where
  accounted := h.books.accounted
  rests := leads_settled log s
  unserved hsettled _ hw := h.valid.get?_of_settled hsettled hw
  serves hsettled _ value hwaited := leads_hasServed h.valid hsettled hwaited value log
  takes _ _ patience _ hv hfree := leads_taken hv hfree patience log
  due w time hmem := by
    obtain ⟨before, after, rfl⟩ := List.append_of_mem hmem
    exact h.books.agrees before _ after rfl
  on_time hclock := h.on_time hclock

/-- In whatever order the tasks run, every value that was set has one fate and is returned at most once, tasks
come to rest with nobody waiting for a key that is there, a value set then goes to exactly one of those who
wait for it, a value that is there is returned at once, and a wait without a value ends at its deadline. What
the store does for any calls is one such run, of just these calls, and so it can be relied on as well. -/
theorem keeps_contract (σ : Type) [Signal σ] [LawfulSignal σ] (α : Type) :
    (∀ (clock : Waits σ α → Nat → Prop) (calls : List (Call α)) (log : List (Event α)) (s : Waits σ α),
      Reached clock calls log s → Contract clock log s) ∧
    ∀ (_ : σ) (calls : List (Call α)), (∃ (log : List (Event α)) (s : Waits σ α),
      Reached IsPunctual (calls.flatMap Call.units) log s ∧ s.Shows (Correlation.empty.callAll calls).2 ∧
        (log.filterMap Event.answer?).Perm (Correlation.empty.callAll calls).1) ∧
      (Correlation.empty.callAll calls).2.Serves := by
  refine ⟨fun _ _ _ _ h => h.contract, fun signal calls => ?_⟩
  have hempty : Shows (⟨.empty, signal, [], 0⟩ : Waits σ α) .empty := ⟨⟨rfl, nofun⟩, rfl, rfl⟩
  obtain ⟨log, s, hreached, hshows, hanswers⟩ := (Reached.start signal).shows_callAll hempty calls
  exact ⟨⟨log, s, hreached, hshows, hanswers⟩, hshows.serves hreached.valid⟩

/-- Two wait for one key. A value for it goes to one of them, and the other goes on waiting until its deadline.
A value that is there is returned to whoever does not wait at all. -/
theorem keeps_contract_two_waiters :
    let calls : List (Call Nat) := [.wait "a" "k" 5, .wait "b" "k" 9]
    let c := (Correlation.empty.callAll [Call.set "k" 7]).2
    (∃ (log : List (Event Nat)) (s : Waits Broadcasts Nat), Reached IsPunctual calls log s ∧
      s.Shows (Correlation.empty.callAll calls).2 ∧ s.waiters = [⟨"a", "k", 0, 5⟩, ⟨"b", "k", 0, 9⟩] ∧
      Leads (fun log' s' => s'.IsSettled ∧ ∃ es, log' = log ++ es ∧ s.HasServed "k" 7 es s')
        (log ++ [.stored "k" 7]) (s.call (.set "k" 7)).2) ∧
    (∃ (log : List (Event Nat)) (s : Waits Broadcasts Nat),
      Reached IsPunctual (calls ++ .set "k" 7 :: List.replicate 9 (.advance 1)) log s ∧
      (log.filterMap Event.answer?).Perm [.ended ⟨"a", some 7, 0⟩, .ended ⟨"b", none, 9⟩] ∧
      (Correlation.empty.callAll (calls ++ [.set "k" 7, .advance 9])).1 =
        [.ended ⟨"a", some 7, 0⟩, .ended ⟨"b", none, 9⟩]) ∧
    c.wait "a" "k" 0 = (some ⟨"a", some 7, 0⟩, { c with entries := c.entries.erase "k" }) := by
  intro calls c
  obtain ⟨hcontract, hruns⟩ := keeps_contract Broadcasts Nat
  refine ⟨?_, ?_, (hruns ⟨0⟩ [.set "k" 7]).2.takes "a" "k" 0 7 rfl⟩
  · obtain ⟨⟨log, s, hreached, hshows, -⟩, -⟩ := hruns ⟨0⟩ calls
    have hwaiters : s.waiters = [⟨"a", "k", 0, 5⟩, ⟨"b", "k", 0, 9⟩] := hshows.waiters.trans (by decide)
    have hwaited : ∃ w ∈ s.waiters, w.key = "k" := by simp [hwaiters]
    exact ⟨log, s, hreached, hshows, hwaiters,
      (hcontract _ _ log s hreached).serves hshows.settled "k" 7 hwaited⟩
  · obtain ⟨⟨log, s, hreached, -, hanswers⟩, -⟩ := hruns ⟨0⟩ (calls ++ [.set "k" 7, .advance 9])
    exact ⟨log, s, hreached, hanswers, rfl⟩

end Waits

end EdgeFleet
