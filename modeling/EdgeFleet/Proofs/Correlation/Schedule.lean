import EdgeFleet.Proofs.Correlation.Rest
import Mathlib.Data.List.Basic

/-! # The store as a schedule of its tasks

What the store does at once for a call is what its tasks do when they are left to run until they rest, in one
of the orders in which they may run.
-/

namespace EdgeFleet

/-! ## Calls of the store -/

/-- What a call or a wait yields. -/
inductive Answer (α : Type) where
  | found (value : Option α)
  | counted (size : Nat)
  | ended (e : Ended α)

/-- What an event tells those outside. -/
def Waits.Event.answer? {α : Type} : Waits.Event α → Option (Answer α)
  | .looked _ value => some (.found value)
  | .counted size => some (.counted size)
  | .ended w time value => some (.ended ⟨w.id, value, time - w.since⟩)
  | .stored _ _ | .swept _ | .began _ => none

namespace Correlation

variable {α : Type} {c : Correlation α}

def call (c : Correlation α) : Waits.Call α → List (Answer α) × Correlation α
  | .set key value => ((c.set key value).1.toList.map .ended, (c.set key value).2)
  | .get key => ([.found (c.get? key)], c)
  | .size => ([.counted c.size], c)
  | .wait id key patience => ((c.wait id key patience).1.toList.map .ended, (c.wait id key patience).2)
  | .sweep retention => ([], (c.sweep retention).2)
  | .advance duration => ((c.advance duration).1.map .ended, (c.advance duration).2)

def callAll (c : Correlation α) : List (Waits.Call α) → List (Answer α) × Correlation α
  | [] => ([], c)
  | call :: calls => ((c.call call).1 ++ ((c.call call).2.callAll calls).1, ((c.call call).2.callAll calls).2)

end Correlation

namespace Waits

variable {σ : Type} [Signal σ] {α : Type} {clock : Waits σ α → Nat → Prop} {calls : List (Call α)}
  {log : List (Event α)} {s s' : Waits σ α} {c : Correlation α}

/-- What is asked of the tasks for a call. Time passes unit by unit, as the clock must stop at every deadline
on the way. -/
def Call.units : Call α → List (Call α)
  | .advance duration => List.replicate duration (.advance 1)
  | call => [call]

/-- The tasks rest, and store and waiters are as in `c`. -/
structure Shows (s : Waits σ α) (c : Correlation α) : Prop where
  settled : s.IsSettled
  store : s.store = { c with waiters := [] }
  waiters : s.waiters = c.waiters

theorem Shows.sweeper (hshows : s.Shows c) (hs : s.Valid) : c.sweeper = none := by
  have hsweeper := hs.sweeper
  rwa [hshows.store] at hsweeper

theorem Shows.deadlines (hshows : s.Shows c) (hs : s.Valid) {w : Waiter} (hw : w ∈ c.waiters) :
    c.now < w.deadline := by
  have hdeadline := (hshows.settled.not_ends hs (hshows.waiters ▸ hw)).2
  rwa [hshows.store] at hdeadline

/-! ## Looking for the key -/

theorem Reached.quiet (h : Reached clock calls log s) (hwork : Work s [] s') : Reached clock calls log s' := by
  simpa using h.work hwork

theorem Reached.take (h : Reached clock calls log s) {before after : List (Wait σ)} {w : Waiter} {v : α}
    (hpending : s.pending = before ++ ⟨w, .beginning⟩ :: after) (hv : s.store.get? w.key = some v) :
    Reached clock calls (log ++ [.ended w s.store.now (some v)])
      { s with
        store := { s.store with entries := s.store.entries.erase w.key }
        pending := before ++ after } := by
  exact (h.quiet (.mark hpending)).work (.take rfl (Correlation.pop?_eq_some_iff.mpr ⟨hv, rfl⟩))

/-- Whoever has changed the store of tasks that rest gives the signal. -/
theorem Reached.signal {store : Correlation α}
    (h : Reached clock calls log { s with store, alarms := s.alarms + 1 }) :
    Reached clock calls log { s with store, signal := Signal.broadcast s.signal } :=
  h.quiet (.signal rfl)

/-- The waits whose deadline has come end. -/
theorem Reached.expire_all {resting : List (Wait σ)} (h : Reached clock calls log s) (before : List (Wait σ))
    (hpending : s.pending = before ++ resting) (hresting : ∀ w ∈ resting, ∃ m, w.stage = .resting m) :
    Reached clock calls
      (log ++ (resting.filter fun w => w.waiter.deadline ≤ s.store.now).map
        fun w => .ended w.waiter s.store.now none)
      { s with pending := before ++ resting.filter fun w => !decide (w.waiter.deadline ≤ s.store.now) } := by
  induction resting generalizing before log s with
  | nil =>
      rw [List.filter_nil, List.filter_nil, List.map_nil, ← hpending, List.append_nil]
      exact h
  | cons w resting ih =>
      obtain ⟨w, stage⟩ := w
      obtain ⟨m, rfl⟩ := hresting _ List.mem_cons_self
      have hrest : ∀ w ∈ resting, ∃ m, w.stage = .resting m := fun w hw =>
        hresting w (List.mem_cons_of_mem _ hw)
      by_cases hdue : w.deadline ≤ s.store.now
      · have hexpire := ih (h.work (.expire hpending hdue)) before rfl hrest
        rw [List.append_assoc] at hexpire
        simpa [hdue] using hexpire
      · have hlater := ih h (before ++ [⟨w, .resting m⟩])
          (hpending.trans (List.append_cons ..)) hrest
        simpa [hdue] using hlater

/-- All tasks are woken by a signal. -/
structure IsWoken (s : Waits σ α) : Prop where
  alarms : s.alarms = 0
  woken : ∀ w ∈ s.pending, ∃ m, w.stage = .resting m ∧ Signal.isRaised s.signal m = true
  deadlines : ∀ w ∈ s.waiters, s.store.now < w.deadline

variable [LawfulSignal σ]

theorem Reached.miss (h : Reached clock calls log s) {before after : List (Wait σ)} {w : Waiter}
    (hpending : s.pending = before ++ ⟨w, .beginning⟩ :: after) (hnone : s.store.get? w.key = none) :
    ∃ m, Signal.isRaised s.signal m = false ∧
      Reached clock calls log { s with pending := before ++ ⟨w, .resting m⟩ :: after } := by
  have hmiss := (h.quiet (.mark hpending)).quiet (.miss rfl (Correlation.pop?_eq_none_iff.mpr hnone))
  exact ⟨_, Signal.isRaised_mark s.signal, hmiss⟩

/-- Tasks that are woken and find nothing rest again. -/
theorem Reached.miss_all {woken : List (Wait σ)} (h : Reached clock calls log s) (before : List (Wait σ))
    (hpending : s.pending = before ++ woken)
    (hwoken : ∀ w ∈ woken, ∃ m, w.stage = .resting m ∧ Signal.isRaised s.signal m = true)
    (hnone : ∀ w ∈ woken, s.store.get? w.waiter.key = none) :
    ∃ rested : List (Wait σ), rested.map (·.waiter) = woken.map (·.waiter) ∧
      (∀ w ∈ rested, ∃ m, w.stage = .resting m ∧ Signal.isRaised s.signal m = false) ∧
      Reached clock calls log { s with pending := before ++ rested } := by
  induction woken generalizing before s with
  | nil =>
      refine ⟨[], rfl, nofun, ?_⟩
      rwa [← hpending]
  | cons w woken ih =>
      obtain ⟨w, stage⟩ := w
      obtain ⟨m, rfl, hraised⟩ := hwoken _ List.mem_cons_self
      obtain ⟨m', hm', hmiss⟩ := (h.quiet (.wake hpending hraised)).miss rfl (hnone _ List.mem_cons_self)
      obtain ⟨rested, hwaiters, hrested, hreached⟩ := ih hmiss (before ++ [⟨w, .resting m'⟩])
        (List.append_cons ..) (fun w hw => hwoken w (List.mem_cons_of_mem _ hw))
        (fun w hw => hnone w (List.mem_cons_of_mem _ hw))
      refine ⟨⟨w, .resting m'⟩ :: rested, by simp [hwaiters], ?_, ?_⟩
      · rw [List.forall_mem_cons]
        exact ⟨⟨m', rfl, hm'⟩, hrested⟩
      · rw [List.append_cons]
        exact hreached

theorem IsSettled.isWoken (h : s.IsSettled) (hs : s.Valid) (store : Correlation α)
    (hnow : store.now = s.store.now) :
    IsWoken { s with store, signal := Signal.broadcast s.signal } := by
  refine ⟨h.alarms, fun w hw => ?_, fun w hw => ?_⟩
  · obtain ⟨-, m, hm, -⟩ := h.resting w hw
    exact ⟨m, hm, (hs.marks w hw m (by rw [hm]; rfl)).isRaised⟩
  · rw [hnow]
    exact (h.not_ends hs hw).2

theorem Reached.settle (h : Reached clock calls log s) (hwoken : s.IsWoken)
    (hnone : ∀ w ∈ s.waiters, s.store.get? w.key = none) :
    ∃ s', Reached clock calls log s' ∧ s'.IsSettled ∧ s'.store = s.store ∧ s'.waiters = s.waiters := by
  obtain ⟨rested, hwaiters, hrested, hreached⟩ := h.miss_all [] rfl hwoken.woken
    fun w hw => hnone w.waiter (List.mem_map_of_mem hw)
  refine ⟨_, hreached, ⟨hwoken.alarms, fun w hw => ⟨?_, hrested w hw⟩⟩, rfl, hwaiters⟩
  exact hwoken.deadlines w.waiter (by rw [waiters, ← hwaiters]; exact List.mem_map_of_mem hw)

/-- One of those who are woken finds its key and takes the value, and the others rest again. -/
theorem Reached.take_woken (h : Reached clock calls log s) (hwoken : s.IsWoken) {before after : List Waiter}
    {w : Waiter} {v : α} (hwaiters : s.waiters = before ++ w :: after) (hv : s.store.get? w.key = some v)
    (hnone : ∀ u ∈ s.waiters, u.key ≠ w.key → s.store.get? u.key = none) :
    ∃ s', Reached clock calls (log ++ [.ended w s.store.now (some v)]) s' ∧ s'.IsSettled ∧
      s'.store = { s.store with entries := s.store.entries.erase w.key } ∧ s'.waiters = before ++ after := by
  obtain ⟨pre, rest, hpending, rfl, hrest⟩ := List.map_eq_append_iff.mp hwaiters
  obtain ⟨⟨w, stage⟩, post, rfl, rfl, rfl⟩ := List.map_eq_cons_iff.mp hrest
  obtain ⟨m, rfl, hraised⟩ := hwoken.woken _ (by rw [hpending]; exact List.mem_append_cons_self)
  have hwake := h.quiet (.wake hpending hraised)
  have hothers : pre ++ post ⊆ s.pending := by
    rw [hpending]
    exact ((List.sublist_cons_self _ post).append_left pre).subset
  have hwaiting := List.map_subset (·.waiter) hothers
  obtain ⟨s', hreached, hsettled, hstore, hwaiters'⟩ := (hwake.take rfl hv).settle
    ⟨hwoken.alarms, fun u hu => hwoken.woken u (hothers hu), fun u hu => hwoken.deadlines u (hwaiting hu)⟩
    fun u hu => by
      rw [Correlation.get?_erase]
      split_ifs with hkey
      · rfl
      · exact hnone u (hwaiting hu) hkey
  exact ⟨s', hreached, hsettled, hstore, hwaiters'.trans List.map_append⟩

/-! ## One call -/

theorem Reached.shows_set (h : Reached clock calls log s) (hshows : s.Shows c) (key : String) (value : α) :
    ∃ es s', Reached clock (calls ++ [.set key value]) (log ++ es) s' ∧ s'.Shows (c.set key value).2 ∧
      es.filterMap Event.answer? = (c.set key value).1.toList.map .ended := by
  have hs := h.valid
  have hmissing := fun w hw => (hshows.settled.not_ends hs (w := w) hw).1
  have hcall := h.call (.set key value) nofun
  rw [call_set hs] at hcall
  have hwoken := hshows.settled.isWoken hs
    { s.store with entries := s.store.entries.insert key ⟨value, s.store.now⟩ } rfl
  have hnone : ∀ u ∈ s.waiters, u.key ≠ key →
      ({ s.store with entries := s.store.entries.insert key ⟨value, s.store.now⟩ } : Correlation α).get? u.key =
        none := fun u hu hkey => by
    rw [Correlation.get?_insert, if_neg hkey, hmissing u hu]
  rw [Correlation.set]
  cases hfind : c.waiters.find? fun w => w.key = key with
  | none =>
      rw [← hshows.waiters, List.find?_eq_none] at hfind
      obtain ⟨s', hreached, hsettled, hstore, hwaiters⟩ := hcall.signal.settle hwoken fun w hw =>
        hnone w hw (by simpa using hfind w hw)
      refine ⟨_, s', hreached, ⟨hsettled, ?_, hwaiters.trans hshows.waiters⟩, rfl⟩
      rw [hstore, hshows.store]
  | some w =>
      obtain ⟨hkey, before, after, hwaiters, hbefore⟩ := List.find?_eq_some_iff_append.mp hfind
      obtain rfl : w.key = key := by simpa using hkey
      obtain ⟨s', hreached, hsettled, hstore, hwaiters'⟩ := hcall.signal.take_woken hwoken
        (hshows.waiters.trans hwaiters) (by rw [Correlation.get?_insert, if_pos rfl]) hnone
      rw [List.append_assoc] at hreached
      refine ⟨_, s', hreached, ⟨hsettled, ?_, ?_⟩, ?_⟩
      · simp only [hstore, KeyMap.erase_insert, hshows.store]
      · rw [hwaiters', hwaiters, List.eraseP_append_right _ fun u hu => by simpa using hbefore u hu,
          List.eraseP_cons_of_pos (by simp)]
      · rw [hshows.store]
        rfl

theorem Reached.shows_wait (h : Reached clock calls log s) (hshows : s.Shows c) (id key : String) (patience : Nat) :
    ∃ es s', Reached clock (calls ++ [.wait id key patience]) (log ++ es) s' ∧
      s'.Shows (c.wait id key patience).2 ∧ es.filterMap Event.answer? = (c.wait id key patience).1.toList.map .ended := by
  have hcall : Reached clock (calls ++ [.wait id key patience])
      (log ++ [.began ⟨id, key, s.store.now, s.store.now + patience⟩])
      { s with pending := s.pending ++ [⟨⟨id, key, s.store.now, s.store.now + patience⟩, .beginning⟩] } :=
    h.call (.wait id key patience) nofun
  have hsettled := hshows.settled
  have hnow : s.store.now = c.now := by rw [hshows.store]
  have hget : s.store.get? key = c.get? key := by
    rw [hshows.store]
    rfl
  cases hkey : c.get? key with
  | some v =>
      have htake := hcall.take rfl (hget.trans hkey)
      rw [List.append_assoc, List.append_nil] at htake
      rw [Correlation.wait_of_stored hkey]
      refine ⟨_, _, htake, ⟨⟨hsettled.alarms, hsettled.resting⟩, ?_, hshows.waiters⟩, ?_⟩
      · rw [hshows.store]
      · change [Answer.ended ⟨id, some v, s.store.now - s.store.now⟩] = _
        rw [Nat.sub_self]
        rfl
  | none =>
      obtain ⟨m, hm, hmiss⟩ := hcall.miss rfl (hget.trans hkey)
      rw [Correlation.wait_of_missing hkey]
      by_cases hpatience : patience = 0
      · rw [if_pos hpatience]
        have hexpire := hmiss.work (.expire rfl (by simp [hpatience]))
        rw [List.append_assoc, List.append_nil] at hexpire
        refine ⟨_, _, hexpire, ⟨⟨hsettled.alarms, hsettled.resting⟩, hshows.store, hshows.waiters⟩, ?_⟩
        change [Answer.ended ⟨id, none, s.store.now - s.store.now⟩] = _
        rw [Nat.sub_self]
        rfl
      · rw [if_neg hpatience]
        refine ⟨_, _, hmiss, ⟨⟨hsettled.alarms, fun w hw => ?_⟩, hshows.store, ?_⟩, rfl⟩
        · obtain hw | hw := List.mem_append.mp hw
          · exact hsettled.resting w hw
          · rw [List.mem_singleton.mp hw]
            exact ⟨Nat.lt_add_of_pos_right (Nat.pos_of_ne_zero hpatience), m, rfl, hm⟩
        · rw [← hnow, ← hshows.waiters]
          simp [waiters]

theorem Reached.shows_sweep (h : Reached clock calls log s) (hshows : s.Shows c) (retention : Nat) :
    ∃ es s', Reached clock (calls ++ [.sweep retention]) (log ++ es) s' ∧ s'.Shows (c.sweep retention).2 ∧
      es.filterMap Event.answer? = [] := by
  have hs := h.valid
  have hcall := h.call (.sweep retention) nofun
  have hwoken := hshows.settled.isWoken hs (s.store.sweep retention).2 rfl
  obtain ⟨s', hreached, hsettled, hstore, hwaiters⟩ := Reached.settle (Reached.signal hcall) hwoken fun w hw => by
    rw [Correlation.get?_sweep, hs.get?_of_settled hshows.settled hw, ite_self]
  refine ⟨_, s', hreached, ⟨hsettled, ?_, hwaiters.trans hshows.waiters⟩, rfl⟩
  rw [hstore, hshows.store]
  rfl

/-! ## The passing of time -/

/-- One unit of time passes. Whoever waits until then has the end of it as deadline. -/
theorem Reached.shows_tick (h : Reached IsPunctual calls log s) (hshows : s.Shows c) :
    ∃ (es : List (Event α)) (s' : Waits σ α), Reached IsPunctual (calls ++ [.advance 1]) (log ++ es) s' ∧
      s'.Shows (c.advance 1).2 ∧ es.filterMap Event.answer? = (c.advance 1).1.map .ended := by
  have hs := h.valid
  have hnow : s.store.now = c.now := by rw [hshows.store]
  have hcall := h.call (.advance 1) fun duration hduration => by
    cases hduration
    exact ⟨hshows.settled, fun w hw => (hshows.settled.not_ends hs hw).2⟩
  rw [call_advance hs, List.append_nil] at hcall
  have hexpire := hcall.expire_all [] rfl fun w hw => by
    obtain ⟨-, m, hm, -⟩ := hshows.settled.resting w hw
    exact ⟨m, hm⟩
  refine ⟨_, _, hexpire, ⟨⟨hshows.settled.alarms, fun w hw => ?_⟩, ?_, ?_⟩, ?_⟩
  · obtain ⟨hw, hdeadline⟩ := List.mem_filter.mp hw
    exact ⟨by simpa using hdeadline, (hshows.settled.resting w hw).2⟩
  · rw [Correlation.advance_of_no_sweeper (hshows.sweeper hs), hshows.store]
  · rw [Correlation.advance_of_no_sweeper (hshows.sweeper hs), ← hshows.waiters, ← hnow]
    have hfilter : s.waiters.filter (fun w => !decide (w.deadline ≤ s.store.now + 1)) =
        (s.pending.filter fun w => !decide (w.waiter.deadline ≤ s.store.now + 1)).map (·.waiter) :=
      List.filter_map
    exact hfilter.symm
  · rw [Correlation.ended_advance, ← hshows.waiters, ← hnow, waiters, List.filter_map, List.filterMap_map,
      List.map_map, List.map_map, ← List.filterMap_eq_map]
    refine List.filterMap_congr fun w hw => ?_
    obtain ⟨hw, hdue⟩ := List.mem_filter.mp hw
    have hdeadline : w.waiter.deadline = s.store.now + 1 :=
      Nat.le_antisymm (by simpa using hdue) (hshows.settled.resting w hw).1
    simp [Event.answer?, hdeadline]

theorem Reached.shows_advance (h : Reached IsPunctual calls log s) (hshows : s.Shows c) (duration : Nat) :
    ∃ (es : List (Event α)) (s' : Waits σ α),
      Reached IsPunctual (calls ++ List.replicate duration (.advance 1)) (log ++ es) s' ∧
      s'.Shows (c.advance duration).2 ∧ (es.filterMap Event.answer?).Perm ((c.advance duration).1.map .ended) := by
  induction duration generalizing calls log s c with
  | zero =>
      have hs := h.valid
      rw [Correlation.advance_zero (hshows.sweeper hs) fun w hw => hshows.deadlines hs hw]
      refine ⟨[], s, ?_, hshows, .nil⟩
      rwa [List.append_nil, List.replicate_zero, List.append_nil]
  | succ duration ih =>
      obtain ⟨es, s', hreached, hshows', hanswers⟩ := h.shows_tick hshows
      obtain ⟨es', s'', hreached', hshows'', hanswers'⟩ := ih hreached hshows'
      obtain ⟨hstate, hperm⟩ := Correlation.advance_add (hshows.sweeper h.valid) 1 duration
      rw [List.append_assoc, List.append_assoc] at hreached'
      rw [hstate, Nat.add_comm] at hshows''
      refine ⟨es ++ es', s'', hreached', hshows'', ?_⟩
      rw [List.filterMap_append, hanswers]
      rw [Nat.add_comm] at hperm
      exact (hanswers'.append_left _).trans (List.map_append ▸ hperm.map Answer.ended)

/-! ## Runs -/

/-- What the store does at once for a call, its tasks do in some order until they rest. -/
theorem Reached.shows_call (h : Reached IsPunctual calls log s) (hshows : s.Shows c) (call : Call α) :
    ∃ (es : List (Event α)) (s' : Waits σ α), Reached IsPunctual (calls ++ call.units) (log ++ es) s' ∧
      s'.Shows (c.call call).2 ∧ (es.filterMap Event.answer?).Perm (c.call call).1 := by
  cases call with
  | set key value =>
      obtain ⟨es, s', hreached, hshows', hanswers⟩ := h.shows_set hshows key value
      exact ⟨es, s', hreached, hshows', .of_eq hanswers⟩
  | get key =>
      refine ⟨[.looked key (s.store.get? key)], s, h.call (.get key) nofun, hshows, .of_eq ?_⟩
      rw [hshows.store]
      rfl
  | size =>
      refine ⟨[.counted s.store.size], s, h.call .size nofun, hshows, .of_eq ?_⟩
      rw [hshows.store]
      rfl
  | wait id key patience =>
      obtain ⟨es, s', hreached, hshows', hanswers⟩ := h.shows_wait hshows id key patience
      exact ⟨es, s', hreached, hshows', .of_eq hanswers⟩
  | sweep retention =>
      obtain ⟨es, s', hreached, hshows', hanswers⟩ := h.shows_sweep hshows retention
      exact ⟨es, s', hreached, hshows', .of_eq hanswers⟩
  | advance duration => exact h.shows_advance hshows duration

theorem Reached.shows_callAll (h : Reached IsPunctual calls log s) (hshows : s.Shows c)
    (more : List (Call α)) : ∃ (es : List (Event α)) (s' : Waits σ α),
      Reached IsPunctual (calls ++ more.flatMap Call.units) (log ++ es) s' ∧ s'.Shows (c.callAll more).2 ∧
      (es.filterMap Event.answer?).Perm (c.callAll more).1 := by
  induction more generalizing calls log s c with
  | nil =>
      refine ⟨[], s, ?_, hshows, .nil⟩
      rwa [List.append_nil, List.flatMap_nil, List.append_nil]
  | cons call more ih =>
      obtain ⟨es, s', hreached, hshows', hanswers⟩ := h.shows_call hshows call
      obtain ⟨es', s'', hreached', hshows'', hanswers'⟩ := ih hreached hshows'
      rw [List.append_assoc, List.append_assoc, ← List.flatMap_cons] at hreached'
      refine ⟨es ++ es', s'', hreached', hshows'', ?_⟩
      rw [List.filterMap_append]
      exact hanswers.append hanswers'

end Waits

end EdgeFleet
