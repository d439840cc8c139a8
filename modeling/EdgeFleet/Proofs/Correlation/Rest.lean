import EdgeFleet.Proofs.Correlation.Tasks
import Mathlib.Tactic.SplitIfs

/-! # How tasks come to rest

However the tasks are scheduled they come to rest, and what they have done by then depends on the state and not
on the schedule.
-/

namespace EdgeFleet

/-! ## A bound on the work -/

variable {σ : Type} [Signal σ] {α : Type}

namespace Wait

/-- A bound on the steps of a task until it rests or ends. A signal adds at most three. -/
def load (signal : σ) (w : Wait σ) : Nat :=
  match w.stage with
  | .beginning => 3
  | .looking m => if Signal.isRaised signal m then 5 else 2
  | .resting m => if Signal.isRaised signal m then 4 else 1

theorem load_le (signal signal' : σ) (w : Wait σ) : w.load signal' ≤ w.load signal + 3 := by
  rw [load, load]
  split <;> grind

/-- The same for several tasks together. -/
def loadAll (signal : σ) : List (Wait σ) → Nat
  | [] => 0
  | w :: ws => w.load signal + loadAll signal ws

theorem loadAll_append (signal : σ) (ws ws' : List (Wait σ)) :
    loadAll signal (ws ++ ws') = loadAll signal ws + loadAll signal ws' := by
  induction ws with
  | nil => exact (Nat.zero_add _).symm
  | cons w ws ih => rw [List.cons_append, loadAll, loadAll, ih, Nat.add_assoc]

theorem loadAll_le (signal signal' : σ) (ws : List (Wait σ)) :
    loadAll signal' ws ≤ loadAll signal ws + 3 * ws.length := by
  induction ws with
  | nil => exact Nat.zero_le _
  | cons w ws ih =>
      have hw := w.load_le signal signal'
      rw [loadAll, loadAll, List.length_cons]
      omega

theorem load_pos (signal : σ) (w : Wait σ) : 0 < w.load signal := by
  rw [load]
  split <;> grind

end Wait

namespace Waits

variable {clock : Waits σ α → Nat → Prop} {calls : List (Call α)} {log : List (Event α)} {s s' : Waits σ α}

/-- A bound on the steps until all rest. -/
def load (s : Waits σ α) : Nat :=
  s.alarms * (3 * s.pending.length + 1) + Wait.loadAll s.signal s.pending

theorem load_signal_lt {n : Nat} (h : s.alarms = n + 1) :
    load { s with signal := Signal.broadcast s.signal, alarms := n } < s.load := by
  have hloads := Wait.loadAll_le s.signal (Signal.broadcast s.signal) s.pending
  simp only [load, h, Nat.succ_mul]
  omega

theorem load_move_lt {before after : List (Wait σ)} {old new : Wait σ} (h : s.pending = before ++ old :: after)
    (hload : new.load s.signal < old.load s.signal) :
    load { s with pending := before ++ new :: after } < s.load := by
  simp only [load, h, Wait.loadAll_append, Wait.loadAll, List.length_append, List.length_cons]
  omega

theorem load_leave_lt {before after : List (Wait σ)} {w : Wait σ} (h : s.pending = before ++ w :: after)
    (store : Correlation α) : load { s with store, pending := before ++ after } < s.load := by
  have hpos := w.load_pos s.signal
  have hlength : s.alarms * (3 * (before ++ after).length + 1) ≤ s.alarms * (3 * s.pending.length + 1) := by
    refine Nat.mul_le_mul_left _ ?_
    simp only [h, List.length_append, List.length_cons]
    omega
  simp only [load, h, Wait.loadAll_append, Wait.loadAll] at hlength ⊢
  omega

theorem Work.load_lt [LawfulSignal σ] {es : List (Event α)} (h : Work s es s') : s'.load < s.load := by
  cases h with
  | signal h => exact load_signal_lt h
  | mark h =>
      refine load_move_lt h ?_
      simp [Wait.load, Signal.isRaised_mark]
  | take h _ => exact load_leave_lt h _
  | miss h _ =>
      refine load_move_lt h ?_
      simp only [Wait.load]
      split_ifs <;> omega
  | wake h hraised =>
      refine load_move_lt h ?_
      simp [Wait.load, hraised]
  | expire h _ => exact load_leave_lt h _

/-- As long as the tasks are not at rest, one of them can take a step. -/
theorem exists_work (h : ¬s.IsSettled) : ∃ es s', Work s es s' := by
  by_contra hnone
  have hidle : ∀ es s', ¬Work s es s' := fun es s' hwork => hnone ⟨es, s', hwork⟩
  refine h ⟨?_, fun w hw => ?_⟩
  · cases halarms : s.alarms with
    | zero => rfl
    | succ n => exact absurd (.signal halarms) (hidle _ _)
  · obtain ⟨before, after, hpending⟩ := List.append_of_mem hw
    obtain ⟨w, stage⟩ := w
    cases stage with
    | beginning => exact absurd (.mark hpending) (hidle _ _)
    | looking m =>
        cases hpop : s.store.pop? w.key with
        | none => exact absurd (.miss hpending hpop) (hidle _ _)
        | some p => exact absurd (.take hpending hpop) (hidle _ _)
    | resting m =>
        refine ⟨?_, m, rfl, ?_⟩
        · by_contra hdue
          exact hidle _ _ (.expire hpending (Nat.le_of_not_lt hdue))
        · by_contra hraised
          exact hidle _ _ (.wake hpending ((Bool.not_eq_false _).mp hraised))

/-! ## Coming to rest -/

/-- However the tasks are scheduled, they come to a state with the property. -/
inductive Leads (P : List (Event α) → Waits σ α → Prop) : List (Event α) → Waits σ α → Prop where
  | here {log : List (Event α)} {s : Waits σ α} (h : P log s) : Leads P log s
  | work {log : List (Event α)} {s : Waits σ α} (hsome : ∃ es s', Work s es s')
      (hall : ∀ es s', Work s es s' → Leads P (log ++ es) s') : Leads P log s

/-- What every step keeps holds when the tasks have come to rest. -/
theorem leads_of_kept [LawfulSignal σ] {P I : List (Event α) → Waits σ α → Prop} (h : I log s)
    (hwork : ∀ log s es s', I log s → Work s es s' → I (log ++ es) s')
    (hsettled : ∀ log s, I log s → s.IsSettled → P log s) : Leads P log s := by
  -- Every step lowers the load, so no fairness is needed.
  induction hload : s.load using Nat.strongRecOn generalizing log s with
  | ind load ih =>
      by_cases hs : s.IsSettled
      · exact .here (hsettled log s h hs)
      · refine .work (exists_work hs) fun es s' hstep => ?_
        exact ih s'.load (hload ▸ hstep.load_lt) (hwork log s es s' h hstep) rfl

/-- Tasks always come to rest. -/
theorem leads_settled [LawfulSignal σ] (log : List (Event α)) (s : Waits σ α) :
    Leads (fun _ s => s.IsSettled) log s :=
  leads_of_kept (I := fun _ _ => True) trivial (fun _ _ _ _ _ _ => trivial) fun _ _ _ h => h

/-! ## A value for those who wait -/

/-- While all are at rest, no deadline has come and nothing is there for anyone who waits. -/
theorem IsSettled.not_ends (h : s.IsSettled) (hs : s.Valid) {w : Waiter} (hw : w ∈ s.waiters) :
    s.store.get? w.key = none ∧ s.store.now < w.deadline := by
  refine ⟨hs.get?_of_settled h hw, ?_⟩
  obtain ⟨wait, hwait, rfl⟩ := List.mem_map.mp hw
  exact (h.resting wait hwait).1

/-- One wait for the key was ended by the value, and all else is as before. -/
def HasServed (s : Waits σ α) (key : String) (value : α) (log : List (Event α)) (s' : Waits σ α) : Prop :=
  ∃ before w after, s.waiters = before ++ w :: after ∧ w.key = key ∧ s'.waiters = before ++ after ∧
    s'.store = s.store ∧ log = [.stored key value, .ended w s.store.now (some value)]

/-- The states between a value being set and one of those who wait for it having it. -/
inductive Serves (s : Waits σ α) (key : String) (value : α) : List (Event α) → Waits σ α → Prop where
  | stored {s' : Waits σ α}
      (hstore : s'.store = { s.store with entries := s.store.entries.insert key ⟨value, s.store.now⟩ })
      (hwaiters : s'.waiters = s.waiters) : Serves s key value [.stored key value] s'
  | served {es : List (Event α)} {s' : Waits σ α} (h : s.HasServed key value es s') : Serves s key value es s'

theorem Serves.work {key : String} {value : α} {u u' : Waits σ α} {es es' : List (Event α)}
    (hs : s.Valid) (hsettled : s.IsSettled) (h : Serves s key value es u) (hwork : Work u es' u') :
    Serves s key value (es ++ es') u' := by
  obtain ⟨rfl, hstore', hwaiters'⟩ | ⟨before, w, after, result, hbefore, hafter, rfl, hresult⟩ :=
    hwork.quiet_or_ends
  · rw [List.append_nil]
    cases h with
    | stored hstore hwaiters => exact .stored (hstore'.trans hstore) (hwaiters'.trans hwaiters)
    | served h =>
        obtain ⟨before, w, after, hbefore, hkey, hafter, hstore, hes⟩ := h
        exact .served
          ⟨before, w, after, hbefore, hkey, hwaiters'.trans hafter, hstore'.trans hstore, hes⟩
  · cases h with
    | stored hstore hwaiters =>
        rw [hwaiters] at hbefore
        rw [hstore] at hresult ⊢
        obtain ⟨hnone, hdeadline⟩ := hsettled.not_ends hs (w := w) (by simp [hbefore])
        obtain ⟨v, rfl, hget, hstore'⟩ | ⟨rfl, hdue, -⟩ := hresult
        · rw [Correlation.get?_insert] at hget
          split_ifs at hget with hkey
          · cases hget
            subst hkey
            refine .served ⟨before, w, after, hbefore, rfl, hafter, ?_, rfl⟩
            rw [hstore', KeyMap.erase_insert, KeyMap.erase_of_get? _ (Option.map_eq_none_iff.mp hnone)]
          · rw [hnone] at hget
            cases hget
        · exact absurd hdue (Nat.not_le_of_lt hdeadline)
    | served h =>
        -- The others are at rest as before, since the value is gone.
        obtain ⟨before', w', after', hbefore', -, hafter', hstore, -⟩ := h
        have hw : w ∈ s.waiters := by
          have hmem : w ∈ before' ++ after' := by simp [← hafter', hbefore]
          rw [hbefore', List.mem_append, List.mem_cons]
          exact (List.mem_append.mp hmem).imp_right .inr
        obtain ⟨hnone, hdeadline⟩ := hsettled.not_ends hs hw
        rw [hstore] at hresult
        obtain ⟨v, -, hget, -⟩ | ⟨-, hdue, -⟩ := hresult
        · rw [hnone] at hget
          cases hget
        · exact absurd hdue (Nat.not_le_of_lt hdeadline)

/-- A value set while someone waits for its key goes to one of those, however the tasks are scheduled. -/
theorem leads_hasServed [LawfulSignal σ] (hs : s.Valid) (hsettled : s.IsSettled) {key : String}
    (hwaited : ∃ w ∈ s.waiters, w.key = key) (value : α) (log : List (Event α)) :
    Leads (fun log' s' => s'.IsSettled ∧ ∃ es, log' = log ++ es ∧ s.HasServed key value es s')
      (log ++ (s.call (.set key value)).1) (s.call (.set key value)).2 := by
  refine leads_of_kept
    (I := fun log' s' => s'.Valid ∧ ∃ es, log' = log ++ es ∧ Serves s key value es s') ?_ ?_ ?_
  · refine ⟨hs.call _, _, rfl, ?_⟩
    rw [call_set hs]
    exact .stored rfl rfl
  · rintro _ u es' u' ⟨hu, es, rfl, hserves⟩ hwork
    exact ⟨hu.work hwork, es ++ es', List.append_assoc .., hserves.work hs hsettled hwork⟩
  · rintro _ u ⟨hu, es, rfl, hserves⟩ hrest
    refine ⟨hrest, es, rfl, ?_⟩
    cases hserves with
    | stored hstore hwaiters =>
        obtain ⟨w, hw, rfl⟩ := hwaited
        have hnone := hu.get?_of_settled hrest (hwaiters ▸ hw)
        rw [hstore, Correlation.get?_insert, if_pos rfl] at hnone
        cases hnone
    | served h => exact h

/-! ## A value that is there already -/

/-- Only the wait is for the key, and it has not rested yet. -/
structure IsFirst (w : Waiter) (pending : List (Wait σ)) : Prop where
  waits : ∃ u ∈ pending, u.waiter.key = w.key
  only : ∀ u ∈ pending, u.waiter.key = w.key → u.waiter = w ∧ ∀ m, u.stage ≠ .resting m

theorem IsFirst.move {w : Waiter} {before after : List (Wait σ)} {old new : Wait σ}
    (h : IsFirst w (before ++ old :: after)) (hwaiter : new.waiter = old.waiter)
    (hstage : new.waiter.key = w.key → ∀ m, new.stage ≠ .resting m) :
    IsFirst w (before ++ new :: after) := by
  obtain ⟨⟨u, hu, hkey⟩, honly⟩ := h
  simp only [List.mem_append, List.mem_cons] at hu honly
  refine ⟨?_, fun u hu hkey => ?_⟩
  · obtain hu | rfl | hu := hu
    · exact ⟨u, List.mem_append_left _ hu, hkey⟩
    · exact ⟨new, List.mem_append_cons_self, hwaiter ▸ hkey⟩
    · exact ⟨u, List.mem_append_right _ (List.mem_cons_of_mem _ hu), hkey⟩
  · rw [List.mem_append, List.mem_cons] at hu
    obtain hu | rfl | hu := hu
    · exact honly u (.inl hu) hkey
    · exact ⟨hwaiter.trans (honly old (.inr (.inl rfl)) (hwaiter ▸ hkey)).1, hstage hkey⟩
    · exact honly u (.inr (.inr hu)) hkey

theorem IsFirst.leave {w : Waiter} {before after : List (Wait σ)} {u : Wait σ}
    (h : IsFirst w (before ++ u :: after)) (hkey : u.waiter.key ≠ w.key) :
    IsFirst w (before ++ after) := by
  obtain ⟨⟨first, hfirst, hfirstKey⟩, honly⟩ := h
  simp only [List.mem_append, List.mem_cons] at hfirst honly
  refine ⟨⟨first, ?_, hfirstKey⟩, fun u hu => honly u ((List.mem_append.mp hu).imp_right .inr)⟩
  obtain hfirst | rfl | hfirst := hfirst
  · exact List.mem_append_left _ hfirst
  · exact absurd hfirstKey hkey
  · exact List.mem_append_right _ hfirst

/-- The wait has ended with the value, or the value is there for it alone. -/
def Takes (w : Waiter) (now : Nat) (v : α) (es : List (Event α)) (s : Waits σ α) : Prop :=
  .ended w now (some v) ∈ es ∨ s.store.now = now ∧ s.store.get? w.key = some v ∧ IsFirst w s.pending

theorem Takes.work {w : Waiter} {now : Nat} {v : α} {es es' : List (Event α)} {u u' : Waits σ α}
    (h : Takes w now v es u) (hwork : Work u es' u') : Takes w now v (es ++ es') u' := by
  obtain hended | ⟨hnow, hv, hfirst⟩ := h
  · exact .inl (List.mem_append_left _ hended)
  cases hwork with
  | signal _ => exact .inr ⟨hnow, hv, hfirst⟩
  | mark hpending =>
      rw [hpending] at hfirst
      exact .inr ⟨hnow, hv, hfirst.move rfl nofun⟩
  | @take before after taker m value _ hpending hpop =>
      obtain ⟨hget, rfl⟩ := Correlation.pop?_eq_some_iff.mp hpop
      rw [hpending] at hfirst
      by_cases hkey : taker.key = w.key
      · obtain ⟨rfl, -⟩ := hfirst.only _ List.mem_append_cons_self hkey
        obtain rfl : value = v := Option.some.inj (hget.symm.trans hv)
        exact .inl (by simp [hnow])
      · refine .inr ⟨hnow, ?_, hfirst.leave hkey⟩
        rw [Correlation.get?_erase, if_neg (Ne.symm hkey), hv]
  | miss hpending hpop =>
      rw [hpending] at hfirst
      refine .inr ⟨hnow, hv, hfirst.move rfl fun hkey => ?_⟩
      rw [Correlation.pop?_eq_none_iff] at hpop
      rw [← hkey, hpop] at hv
      cases hv
  | wake hpending _ =>
      rw [hpending] at hfirst
      exact .inr ⟨hnow, hv, hfirst.move rfl nofun⟩
  | @expire before after expired m hpending _ =>
      rw [hpending] at hfirst
      refine .inr ⟨hnow, hv, hfirst.leave fun hkey => ?_⟩
      exact (hfirst.only _ List.mem_append_cons_self hkey).2 m rfl

/-- A wait ends at once when a value is there, unless others wait for the same key. -/
theorem leads_taken [LawfulSignal σ] {id key : String} {v : α} (hv : s.store.get? key = some v)
    (hfree : ∀ w ∈ s.waiters, w.key ≠ key) (patience : Nat) (log : List (Event α)) :
    Leads (fun log' s' => s'.IsSettled ∧ ∃ es, log' = log ++ es ∧
        .ended ⟨id, key, s.store.now, s.store.now + patience⟩ s.store.now (some v) ∈ es)
      (log ++ (s.call (.wait id key patience)).1) (s.call (.wait id key patience)).2 := by
  refine leads_of_kept (I := fun log' s' => ∃ es, log' = log ++ es ∧
    Takes ⟨id, key, s.store.now, s.store.now + patience⟩ s.store.now v es s') ?_ ?_ ?_
  · refine ⟨_, rfl, .inr ⟨rfl, hv, ⟨⟨_, List.mem_append_right _ (List.mem_singleton_self _), rfl⟩, ?_⟩⟩⟩
    intro u hu hkey
    obtain hu | hu := List.mem_append.mp hu
    · exact absurd hkey (hfree u.waiter (List.mem_map_of_mem hu))
    · rw [List.mem_singleton.mp hu]
      exact ⟨rfl, nofun⟩
  · rintro _ u es' u' ⟨es, rfl, htakes⟩ hwork
    exact ⟨es ++ es', List.append_assoc .., htakes.work hwork⟩
  · rintro _ u ⟨es, rfl, hended | ⟨-, -, ⟨first, hfirst, hkey⟩, honly⟩⟩ hrest
    · exact ⟨hrest, es, rfl, hended⟩
    · obtain ⟨-, m, hm, -⟩ := hrest.resting first hfirst
      exact absurd hm ((honly first hfirst hkey).2 m)

/-! ## Deadlines -/

theorem call_ne_ended {c : Call α} {w : Waiter} {time : Nat} {result : Option α} :
    .ended w time result ∉ (s.call c).1 := by
  cases c <;> simp [call]

/-- With a clock that stops at each deadline nobody waits past it, and a wait without a value ends there. -/
theorem Reached.on_time [LawfulSignal σ] (hclock : ∀ s duration, clock s duration → s.IsPunctual duration)
    (h : Reached clock calls log s) : (∀ w ∈ s.waiters, s.store.now ≤ w.deadline) ∧
      ∀ w time, .ended w time none ∈ log → time = w.deadline := by
  induction h with
  | start _ => exact ⟨nofun, nofun⟩
  | @call calls log s h c hpasses ih =>
      refine ⟨?_, fun w time hmem => ?_⟩
      · cases c with
        | set key value =>
            rw [call_set h.valid]
            exact ih.1
        | get _ | size | sweep _ => exact ih.1
        | wait id key patience =>
            intro w hw
            simp only [Waits.call, waiters, List.map_append, List.mem_append] at hw
            obtain hw | hw := hw
            · exact ih.1 w hw
            · rw [List.mem_singleton.mp hw]
              exact Nat.le_add_right _ _
        | advance duration =>
            rw [call_advance h.valid]
            exact (hclock s duration (hpasses duration rfl)).deadlines
      · obtain hmem | hmem := List.mem_append.mp hmem
        · exact ih.2 w time hmem
        · exact absurd hmem call_ne_ended
  | @work calls log es s s' h hwork ih =>
      obtain ⟨rfl, hstore, hwaiters⟩ | ⟨before, w, after, result, hbefore, hafter, rfl, hresult⟩ :=
        hwork.quiet_or_ends
      · rw [hwaiters, hstore, List.append_nil]
        exact ih
      · have hnow : s'.store.now = s.store.now := by
          obtain ⟨v, -, -, hstore⟩ | ⟨-, -, hstore⟩ := hresult <;> rw [hstore]
        rw [hbefore] at ih
        refine ⟨fun u hu => ?_, fun u time hmem => ?_⟩
        · rw [hafter, List.mem_append] at hu
          rw [hnow]
          exact ih.1 u (List.mem_append.mpr (hu.imp_right (List.mem_cons_of_mem _)))
        · obtain hmem | hmem := List.mem_append.mp hmem
          · exact ih.2 u time hmem
          · cases List.mem_singleton.mp hmem
            obtain ⟨v, hv, -⟩ | ⟨-, hdue, -⟩ := hresult
            · cases hv
            · exact Nat.le_antisymm (ih.1 w List.mem_append_cons_self) hdue

end Waits

end EdgeFleet
