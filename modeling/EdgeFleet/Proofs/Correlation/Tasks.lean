import EdgeFleet.Proofs.Agent.Correlation
import Mathlib.Logic.Function.Iterate

/-! # Waiting as tasks

The store as tasks share it. Who waits for a key takes a mark of a signal, looks for the key, and rests until
the signal is given or the deadline comes; who has changed the store gives the signal afterwards. The steps of
one task may come between any two steps of others.
-/

namespace EdgeFleet

/-! ## The signal -/

/-- A signal to everyone, and the marks by which those who rest notice that it was given. -/
class Signal (σ : Type) where
  Mark : Type
  mark : σ → Mark
  broadcast : σ → σ
  isRaised : σ → Mark → Bool

/-- A mark is raised when the signal has been given since it was taken, whether or not anyone rested by then. -/
class LawfulSignal (σ : Type) [Signal σ] : Prop where
  isRaised_mark (signal : σ) (n : Nat) :
    Signal.isRaised (Signal.broadcast^[n] signal) (Signal.mark signal) = decide (0 < n)

namespace Signal

variable {σ : Type} [Signal σ] {signal : σ} {m : Mark σ}

/-- The mark was taken some signals ago. -/
def IsOf (signal : σ) (m : Mark σ) : Prop :=
  ∃ earlier n, m = mark earlier ∧ signal = broadcast^[n] earlier

theorem isOf_mark (signal : σ) : IsOf signal (mark signal) := ⟨signal, 0, rfl, rfl⟩

theorem IsOf.broadcast (h : IsOf signal m) : IsOf (broadcast signal) m := by
  obtain ⟨earlier, n, hm, rfl⟩ := h
  exact ⟨earlier, n + 1, hm, (Function.iterate_succ_apply' ..).symm⟩

variable [LawfulSignal σ]

theorem isRaised_mark (signal : σ) : isRaised signal (mark signal) = false :=
  LawfulSignal.isRaised_mark signal 0

theorem IsOf.isRaised (h : IsOf signal m) : isRaised (Signal.broadcast signal) m = true := by
  obtain ⟨earlier, n, rfl, rfl⟩ := h
  rw [← Function.iterate_succ_apply' Signal.broadcast, LawfulSignal.isRaised_mark, decide_eq_true n.succ_pos]

end Signal

/-- A signal that knows how often it was given. -/
structure Broadcasts where
  count : Nat

namespace Broadcasts

instance : Signal Broadcasts where
  Mark := Nat
  mark b := b.count
  broadcast b := ⟨b.count + 1⟩
  isRaised b m := decide (m < b.count)

theorem iterate_broadcast (b : Broadcasts) (n : Nat) : (Signal.broadcast^[n] b) = ⟨b.count + n⟩ := by
  induction n with
  | zero => rfl
  | succ n ih =>
      rw [Function.iterate_succ_apply', ih]
      rfl

instance : LawfulSignal Broadcasts where
  isRaised_mark b n := by
    rw [iterate_broadcast]
    exact decide_eq_decide.mpr Nat.lt_add_right_iff_pos

end Broadcasts

/-! ## Tasks -/

/-- How far a task is with its wait for a key. -/
inductive Wait.Stage (σ : Type) [Signal σ] where
  | beginning
  /-- It has taken a mark and has not looked for the key since. -/
  | looking (mark : Signal.Mark σ)
  /-- It has not found the key. -/
  | resting (mark : Signal.Mark σ)

def Wait.Stage.mark? {σ : Type} [Signal σ] : Wait.Stage σ → Option (Signal.Mark σ)
  | beginning => none
  | looking m => some m
  | resting m => some m

structure Wait (σ : Type) [Signal σ] where
  waiter : Waiter
  stage : Wait.Stage σ

/-- A store that is shared by tasks. -/
structure Waits (σ : Type) [Signal σ] (α : Type) where
  store : Correlation α
  signal : σ
  /-- Who waits, the longest wait first. -/
  pending : List (Wait σ)
  /-- How many have changed the store and have not given the signal yet. -/
  alarms : Nat

namespace Waits

variable {σ : Type} [Signal σ] {α : Type}

def waiters (s : Waits σ α) : List Waiter := s.pending.map (·.waiter)

/-- What has happened, with what came out of it. -/
inductive Event (α : Type) where
  | stored (key : String) (value : α)
  | swept (keys : List String)
  | looked (key : String) (value : Option α)
  | counted (size : Nat)
  | began (w : Waiter)
  | ended (w : Waiter) (time : Nat) (value : Option α)

/-- What may be asked of the store at any time. -/
inductive Call (α : Type) where
  | set (key : String) (value : α)
  | get (key : String)
  | size
  | wait (id key : String) (patience : Nat)
  | sweep (retention : Nat)
  | advance (duration : Nat)

/-- A call. Who sets or sweeps gives the signal later, and a wait has its first look later. -/
def call (s : Waits σ α) : Call α → List (Event α) × Waits σ α
  | .set key value =>
    ([.stored key value], { s with store := (s.store.set key value).2, alarms := s.alarms + 1 })
  | .get key => ([.looked key (s.store.get? key)], s)
  | .size => ([.counted s.store.size], s)
  | .wait id key patience =>
    let w : Waiter := ⟨id, key, s.store.now, s.store.now + patience⟩
    ([.began w], { s with pending := s.pending ++ [⟨w, .beginning⟩] })
  | .sweep retention =>
    ([.swept (s.store.dropped retention)],
      { s with store := (s.store.sweep retention).2, alarms := s.alarms + 1 })
  | .advance duration => ([], { s with store := (s.store.advance duration).2 })

/-- A step that some task may take by itself. -/
inductive Work (s : Waits σ α) : List (Event α) → Waits σ α → Prop where
  | signal {n : Nat} (h : s.alarms = n + 1) :
      Work s [] { s with signal := Signal.broadcast s.signal, alarms := n }
  | mark {before after : List (Wait σ)} {w : Waiter} (h : s.pending = before ++ ⟨w, .beginning⟩ :: after) :
      Work s [] { s with pending := before ++ ⟨w, .looking (Signal.mark s.signal)⟩ :: after }
  | take {before after : List (Wait σ)} {w : Waiter} {m : Signal.Mark σ} {value : α} {store : Correlation α}
      (h : s.pending = before ++ ⟨w, .looking m⟩ :: after)
      (hpop : s.store.pop? w.key = some (value, store)) :
      Work s [.ended w s.store.now (some value)] { s with store, pending := before ++ after }
  | miss {before after : List (Wait σ)} {w : Waiter} {m : Signal.Mark σ}
      (h : s.pending = before ++ ⟨w, .looking m⟩ :: after) (hpop : s.store.pop? w.key = none) :
      Work s [] { s with pending := before ++ ⟨w, .resting m⟩ :: after }
  | wake {before after : List (Wait σ)} {w : Waiter} {m : Signal.Mark σ}
      (h : s.pending = before ++ ⟨w, .resting m⟩ :: after) (hraised : Signal.isRaised s.signal m = true) :
      Work s [] { s with pending := before ++ ⟨w, .beginning⟩ :: after }
  /-- A deadline ends only a wait that rests: what is there is found without patience too. -/
  | expire {before after : List (Wait σ)} {w : Waiter} {m : Signal.Mark σ}
      (h : s.pending = before ++ ⟨w, .resting m⟩ :: after) (hdue : w.deadline ≤ s.store.now) :
      Work s [.ended w s.store.now none] { s with pending := before ++ after }

/-- The states that are reached by calls and work in any order, with the calls that were made and what has
happened. Time passes as the clock allows. -/
inductive Reached (clock : Waits σ α → Nat → Prop) :
    List (Call α) → List (Event α) → Waits σ α → Prop where
  | start (signal : σ) : Reached clock [] [] ⟨.empty, signal, [], 0⟩
  | call {calls : List (Call α)} {log : List (Event α)} {s : Waits σ α} (h : Reached clock calls log s)
      (c : Call α) (hclock : ∀ duration, c = .advance duration → clock s duration) :
      Reached clock (calls ++ [c]) (log ++ (s.call c).1) (s.call c).2
  | work {calls : List (Call α)} {log es : List (Event α)} {s s' : Waits σ α} (h : Reached clock calls log s)
      (hwork : Work s es s') : Reached clock calls (log ++ es) s'

/-- No task has anything to do before the next call. -/
structure IsSettled (s : Waits σ α) : Prop where
  alarms : s.alarms = 0
  resting : ∀ w ∈ s.pending, s.store.now < w.waiter.deadline ∧
    ∃ m, w.stage = .resting m ∧ Signal.isRaised s.signal m = false

/-- Time passes only while no task has anything to do, and stops at each deadline. -/
structure IsPunctual (s : Waits σ α) (duration : Nat) : Prop where
  settled : s.IsSettled
  deadlines : ∀ w ∈ s.waiters, s.store.now + duration ≤ w.deadline

/-! ## The store without waiters -/

/-- What every reached state has. A task that has not found its key rests on a mark that a signal raises, so
the key is missing unless someone is still to give the signal. -/
structure Valid (s : Waits σ α) : Prop where
  waiters : s.store.waiters = []
  sweeper : s.store.sweeper = none
  marks : ∀ w ∈ s.pending, ∀ m, w.stage.mark? = some m → Signal.IsOf s.signal m
  alert : s.alarms = 0 → ∀ w ∈ s.pending, ∀ m, w.stage = .resting m → Signal.isRaised s.signal m = false →
    s.store.get? w.waiter.key = none

variable {clock : Waits σ α → Nat → Prop} {calls : List (Call α)} {log : List (Event α)} {s s' : Waits σ α}

theorem call_set (h : s.Valid) (key : String) (value : α) :
    s.call (.set key value) = ([.stored key value],
      { s with
        store := { s.store with entries := s.store.entries.insert key ⟨value, s.store.now⟩ }
        alarms := s.alarms + 1 }) := by
  rw [call, Correlation.set_of_no_waiters h.waiters]

theorem call_advance (h : s.Valid) (duration : Nat) :
    s.call (.advance duration) = ([], { s with store := { s.store with now := s.store.now + duration } }) := by
  rw [call, Correlation.advance_of_no_waiters h.waiters h.sweeper]

/-! ## Steps -/

theorem waiters_of_pending {before after : List (Wait σ)} {w : Wait σ}
    (h : s.pending = before ++ w :: after) :
    s.waiters = before.map (·.waiter) ++ w.waiter :: after.map (·.waiter) := by
  rw [waiters, h, List.map_append, List.map_cons]

/-- A step leaves the store and those who wait as they are, or ends one wait: with the value under its key,
or at its deadline without one. -/
theorem Work.quiet_or_ends {es : List (Event α)} (h : Work s es s') :
    es = [] ∧ s'.store = s.store ∧ s'.waiters = s.waiters ∨
      ∃ before w after result, s.waiters = before ++ w :: after ∧ s'.waiters = before ++ after ∧
        es = [.ended w s.store.now result] ∧ ((∃ v, result = some v ∧ s.store.get? w.key = some v ∧
          s'.store = { s.store with entries := s.store.entries.erase w.key }) ∨
        result = none ∧ w.deadline ≤ s.store.now ∧ s'.store = s.store) := by
  cases h with
  | signal _ => exact .inl ⟨rfl, rfl, rfl⟩
  | mark h | miss h _ | wake h _ => exact .inl ⟨rfl, rfl, by simp [waiters, h]⟩
  | take h hpop =>
      obtain ⟨hget, rfl⟩ := Correlation.pop?_eq_some_iff.mp hpop
      exact .inr ⟨_, _, _, _, waiters_of_pending h, List.map_append, rfl, .inl ⟨_, rfl, hget, rfl⟩⟩
  | expire h hdue =>
      exact .inr ⟨_, _, _, _, waiters_of_pending h, List.map_append, rfl, .inr ⟨rfl, hdue, rfl⟩⟩

theorem valid_start (signal : σ) : Valid (⟨.empty, signal, [], 0⟩ : Waits σ α) :=
  ⟨rfl, rfl, nofun, nofun⟩

theorem Valid.call (h : s.Valid) (c : Call α) : (s.call c).2.Valid := by
  cases c with
  | set key value =>
      rw [call_set h]
      exact ⟨h.waiters, h.sweeper, h.marks, nofun⟩
  | get _ | size => exact h
  | wait id key patience =>
      refine ⟨h.waiters, h.sweeper, fun w hw m hm => ?_, fun hnone w hw m hm => ?_⟩
      · obtain hw | hw := List.mem_append.mp hw
        · exact h.marks w hw m hm
        · rw [List.mem_singleton.mp hw] at hm
          cases hm
      · obtain hw | hw := List.mem_append.mp hw
        · exact h.alert hnone w hw m hm
        · rw [List.mem_singleton.mp hw] at hm
          cases hm
  | sweep retention => exact ⟨h.waiters, h.sweeper, h.marks, nofun⟩
  | advance duration =>
      rw [call_advance h]
      exact ⟨h.waiters, h.sweeper, h.marks, h.alert⟩

/-- When no task has anything to do, nobody waits for a key that is there. -/
theorem Valid.get?_of_settled (h : s.Valid) (hsettled : s.IsSettled) {w : Waiter} (hw : w ∈ s.waiters) :
    s.store.get? w.key = none := by
  obtain ⟨wait, hwait, rfl⟩ := List.mem_map.mp hw
  obtain ⟨-, m, hm, hraised⟩ := hsettled.resting wait hwait
  exact h.alert hsettled.alarms wait hwait m hm hraised

/-- A task goes on to another stage, with a mark of the signal. It does not rest while its key is there. -/
theorem Valid.move (h : s.Valid) {before after : List (Wait σ)} {old new : Wait σ}
    (hpending : s.pending = before ++ old :: after)
    (hmark : ∀ m, new.stage.mark? = some m → Signal.IsOf s.signal m)
    (halert : ∀ m, new.stage = .resting m → s.store.get? new.waiter.key = none) :
    Valid { s with pending := before ++ new :: after } := by
  have hmem : ∀ w ∈ before ++ new :: after, w = new ∨ w ∈ s.pending := by
    simp only [hpending, List.mem_append, List.mem_cons]
    rintro w (hw | hw | hw) <;> simp [hw]
  refine ⟨h.waiters, h.sweeper, fun w hw m hm => ?_, fun hnone w hw m hm hraised => ?_⟩
  · obtain rfl | hw := hmem w hw
    · exact hmark m hm
    · exact h.marks w hw m hm
  · obtain rfl | hw := hmem w hw
    · exact halert m hm
    · exact h.alert hnone w hw m hm hraised

/-- A task ends, and at most takes something out of the store. -/
theorem Valid.leave (h : s.Valid) {before after : List (Wait σ)} {w : Wait σ}
    (hpending : s.pending = before ++ w :: after) {store : Correlation α}
    (hwaiters : store.waiters = []) (hsweeper : store.sweeper = none)
    (hstore : ∀ i, s.store.get? i = none → store.get? i = none) :
    Valid { s with store, pending := before ++ after } := by
  have hmem : ∀ w ∈ before ++ after, w ∈ s.pending := by
    simp only [hpending, List.mem_append, List.mem_cons]
    rintro w (hw | hw) <;> simp [hw]
  exact ⟨hwaiters, hsweeper, fun w hw => h.marks w (hmem w hw), fun hnone w hw m hm hraised =>
    hstore _ (h.alert hnone w (hmem w hw) m hm hraised)⟩

variable [LawfulSignal σ]

theorem Valid.work (h : s.Valid) {es : List (Event α)} (hwork : Work s es s') : s'.Valid := by
  cases hwork with
  | signal _ =>
      refine ⟨h.waiters, h.sweeper, fun w hw m hm => (h.marks w hw m hm).broadcast, ?_⟩
      -- All marks are raised now, so nobody rests without being woken.
      intro _ w hw m hm hraised
      rw [(h.marks w hw m (by rw [hm]; rfl)).isRaised] at hraised
      cases hraised
  | mark hpending =>
      refine h.move hpending (fun m hm => ?_) nofun
      cases hm
      exact Signal.isOf_mark s.signal
  | take hpending hpop =>
      obtain ⟨-, rfl⟩ := Correlation.pop?_eq_some_iff.mp hpop
      refine h.leave hpending h.waiters h.sweeper fun i hi => ?_
      rw [Correlation.get?_erase, hi, ite_self]
  | miss hpending hpop =>
      refine h.move hpending (fun m hm => ?_) fun _ _ => Correlation.pop?_eq_none_iff.mp hpop
      cases hm
      exact h.marks _ (by rw [hpending]; exact List.mem_append_cons_self) _ rfl
  | wake hpending _ => exact h.move hpending nofun nofun
  | expire hpending _ => exact h.leave hpending h.waiters h.sweeper fun _ hi => hi

theorem Reached.valid (h : Reached clock calls log s) : s.Valid := by
  induction h with
  | start signal => exact valid_start signal
  | call _ c _ ih => exact ih.call c
  | work _ hwork ih => exact ih.work hwork

end Waits

end EdgeFleet
