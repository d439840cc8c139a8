import EdgeFleet.KeyMap.Counts
import EdgeFleet.Proofs.Correlation.Schedule

/-! # The sweeper keeps its times

A value that nobody takes is dropped by the first round of the sweeper at which it is older than the retention.
So it is never there for longer than the retention and one period more, and never dropped before.
-/

namespace EdgeFleet

namespace Correlation

variable {α : Type} {c : Correlation α} {key : String} {e : Stored α} {period retention : Nat}

/-! ## One sweep -/

theorem get?_kept {entries : KeyMap (Stored α)} {time : Nat} :
    (kept entries time retention).get? key = some e ↔
      entries.get? key = some e ∧ time ≤ e.since + retention := by
  rw [kept, KeyMap.get?_filter, Option.filter_eq_some_iff, decide_eq_true_iff, Nat.sub_le_iff_le_add']

/-- A sweep yields the number of the entries that are too old. -/
theorem sweep_fst (c : Correlation α) (retention : Nat) :
    (c.sweep retention).1 = {key | ∃ e, c.entries.get? key = some e ∧ e.since + retention < c.now}.ncard := by
  have hold : ∀ e : Stored α, e.since + retention < c.now ↔ ¬c.now - e.since ≤ retention := by omega
  have hcount := c.entries.countP_toList fun _ e => decide ¬decide (c.now - e.since ≤ retention) = true
  have hsplit := List.length_eq_countP_add_countP (l := c.entries.toList)
    fun e => decide (c.now - e.2.since ≤ retention)
  have hkept : (kept c.entries c.now retention).size =
      c.entries.toList.countP fun e => decide (c.now - e.2.since ≤ retention) :=
    List.countP_eq_length_filter.symm
  have hsweep : (c.sweep retention).1 = c.entries.toList.length - (kept c.entries c.now retention).size := rfl
  rw [hsweep, hsplit, hkept, Nat.add_sub_cancel_left, hcount]
  simp only [hold, decide_eq_true_eq]

/-! ## What a call leaves -/

/-- What is stored after a call was set by it, or was stored before. -/
theorem get?_entries_call (call : Waits.Call α) (h : (c.call call).2.entries.get? key = some e) :
    (∃ v, call = .set key v ∧ e = ⟨v, c.now⟩) ∨
      c.entries.get? key = some e ∧ ∀ v, call ≠ .set key v := by
  have herase : ∀ {k}, (c.entries.erase k).get? key = some e → key ≠ k ∧ c.entries.get? key = some e := by
    intro k hk
    rw [KeyMap.get?_erase] at hk
    split at hk
    · cases hk
    · next hne => exact ⟨hne, hk⟩
  cases call with
  | set k value =>
      simp only [Correlation.call, set] at h
      split at h
      · obtain ⟨hne, h⟩ := herase h
        exact .inr ⟨h, fun v hv => hne (by cases hv; rfl)⟩
      · rw [KeyMap.get?_insert] at h
        split at h
        · next hkey =>
          cases h
          exact .inl ⟨value, by rw [hkey], rfl⟩
        · next hne => exact .inr ⟨h, fun v hv => hne (by cases hv; rfl)⟩
  | get _ | size => exact .inr ⟨h, fun _ hv => by cases hv⟩
  | wait id k patience =>
      refine .inr ⟨?_, fun _ hv => by cases hv⟩
      simp only [Correlation.call] at h
      cases hk : c.get? k with
      | some v =>
          rw [wait_of_stored hk] at h
          exact (herase h).2
      | none =>
          rw [wait_of_missing hk] at h
          split at h <;> exact h
  | sweep retention => exact .inr ⟨(get?_kept.mp h).1, fun _ hv => by cases hv⟩
  | advance duration =>
      refine .inr ⟨?_, fun _ hv => by cases hv⟩
      simp only [Correlation.call, advance] at h
      split at h
      · exact h
      · simp only [runSweeper] at h
        split at h
        · exact h
        · exact (get?_kept.mp h).1

theorem callAll_append (c : Correlation α) (calls : List (Waits.Call α)) (call : Waits.Call α) :
    (c.callAll (calls ++ [call])).2 = ((c.callAll calls).2.call call).2 := by
  induction calls generalizing c with
  | nil => rfl
  | cons first calls ih => exact ih (c.call first).2

/-- What is stored is the value that was set last under its key, since the time at which it was set. -/
theorem exists_last_set {c₀ : Correlation α} (hempty : c₀.entries = ∅) (calls : List (Waits.Call α))
    (h : (c₀.callAll calls).2.entries.get? key = some e) :
    ∃ before after, calls = before ++ .set key e.value :: after ∧ (∀ v, .set key v ∉ after) ∧
      e.since = (c₀.callAll before).2.now := by
  induction calls using List.reverseRecOn with
  | nil =>
      rw [callAll, hempty, KeyMap.get?_empty] at h
      cases h
  | append_singleton calls call ih =>
      rw [callAll_append] at h
      obtain ⟨v, rfl, rfl⟩ | ⟨h, hne⟩ := get?_entries_call call h
      · exact ⟨calls, [], rfl, nofun, rfl⟩
      · obtain ⟨before, after, rfl, hafter, hsince⟩ := ih h
        refine ⟨before, after ++ [call], List.append_assoc .., fun v hv => ?_, hsince⟩
        rcases List.mem_append.mp hv with hv | hv
        · exact hafter v hv
        · exact hne v (List.mem_singleton.mp hv).symm

/-! ## Rounds -/

/-- The next round is at the next multiple of the period, and the last one has left nothing too old. -/
structure IsTended (period retention : Nat) (c : Correlation α) : Prop where
  sweeper : ∃ positive, c.sweeper = some ⟨period, retention, (c.now / period + 1) * period, positive⟩
  young : ∀ key e, c.entries.get? key = some e → e.since ≤ c.now ∧ c.now / period * period ≤ e.since + retention

theorem isTended_withSweeper (hperiod : 0 < period) :
    IsTended period retention (withSweeper period retention : Correlation α) := by
  have hmax : max 1 period = period := Nat.max_eq_right hperiod
  refine ⟨⟨hperiod, ?_⟩, nofun⟩
  simp [withSweeper, hmax]

section

variable {now time : Nat} (positive : 0 < period) (entries : KeyMap (Stored α))

/-- When one more period is over there was a round, the last one at its end. -/
theorem runSweeper_of_round (h : now / period < time / period) :
    runSweeper time ⟨period, retention, (now / period + 1) * period, positive⟩ entries =
      (⟨period, retention, (time / period + 1) * period, positive⟩,
        kept entries (time / period * period) retention) := by
  have hdue : (now / period + 1) * period ≤ time := (Nat.le_div_iff_mul_le positive).mp h
  have hlast : Sweeper.lastUpTo? ⟨period, retention, (now / period + 1) * period, positive⟩ time =
      some (time / period * period) := by
    rw [Sweeper.lastUpTo?, if_pos hdue, Nat.mul_comm (_ + 1), Nat.sub_mul_div, Nat.mul_comm period,
      ← Nat.add_mul, Nat.add_sub_cancel' h]
  have hnext : time / period * period + period = (time / period + 1) * period := (Nat.succ_mul ..).symm
  simp only [runSweeper, hlast, hnext]

theorem runSweeper_of_no_round (h : ¬now / period < time / period) :
    runSweeper time ⟨period, retention, (now / period + 1) * period, positive⟩ entries =
      (⟨period, retention, (now / period + 1) * period, positive⟩, entries) := by
  have hdue : ¬(now / period + 1) * period ≤ time := fun hdue => h ((Nat.le_div_iff_mul_le positive).mpr hdue)
  have hlast : Sweeper.lastUpTo? ⟨period, retention, (now / period + 1) * period, positive⟩ time = none :=
    if_neg hdue
  simp only [runSweeper, hlast]

end

/-- What the rounds up to a time leave. -/
theorem advance_of_isTended (h : IsTended period retention c) (duration : Nat) :
    (c.advance duration).2.entries =
        (if c.now / period < (c.now + duration) / period then
          kept c.entries ((c.now + duration) / period * period) retention else c.entries) ∧
      ∃ positive, (c.advance duration).2.sweeper =
        some ⟨period, retention, ((c.now + duration) / period + 1) * period, positive⟩ := by
  obtain ⟨⟨positive, hsweeper⟩, -⟩ := h
  simp only [advance, hsweeper]
  by_cases hround : c.now / period < (c.now + duration) / period
  · rw [runSweeper_of_round positive c.entries hround, if_pos hround]
    exact ⟨rfl, positive, rfl⟩
  · have hsame : (c.now + duration) / period = c.now / period :=
      Nat.le_antisymm (Nat.le_of_not_lt hround) (Nat.div_le_div_right (Nat.le_add_right ..))
    rw [runSweeper_of_no_round positive c.entries hround, if_neg hround, hsame]
    exact ⟨rfl, positive, rfl⟩

namespace IsTended

/-- A passing of time leaves what no round on the way finds too old. -/
theorem get?_advance (h : IsTended period retention c) (duration : Nat) :
    (c.advance duration).2.entries.get? key = some e ↔ c.entries.get? key = some e ∧
      ∀ n, c.now < n * period → n * period ≤ c.now + duration → n * period ≤ e.since + retention := by
  obtain ⟨positive, -⟩ := h.sweeper
  rw [(advance_of_isTended h duration).1]
  have hrounds : ∀ n, (c.now < n * period ↔ c.now / period < n) ∧
      (n * period ≤ c.now + duration ↔ n ≤ (c.now + duration) / period) := fun n =>
    ⟨(Nat.div_lt_iff_lt_mul positive).symm, (Nat.le_div_iff_mul_le positive).symm⟩
  simp only [hrounds]
  split
  · next hround =>
    rw [get?_kept]
    refine and_congr_right fun _ => ⟨fun hlast n _ hn => ?_, fun hall => hall _ hround le_rfl⟩
    exact (Nat.mul_le_mul_right period hn).trans hlast
  · next hnone => exact ⟨fun he => ⟨he, fun n hn hn' => absurd (hn.trans_le hn') hnone⟩, And.left⟩

theorem advance (h : IsTended period retention c) (duration : Nat) :
    IsTended period retention (c.advance duration).2 := by
  obtain ⟨positive, -⟩ := h.sweeper
  refine ⟨?_, fun key e he => ?_⟩
  · rw [now_advance]
    exact (advance_of_isTended h duration).2
  · rw [now_advance]
    obtain ⟨he, hrounds⟩ := (h.get?_advance duration).mp he
    obtain ⟨hsince, hyoung⟩ := h.young key e he
    refine ⟨hsince.trans (Nat.le_add_right ..), ?_⟩
    by_cases hround : c.now / period < (c.now + duration) / period
    · exact hrounds _ ((Nat.div_lt_iff_lt_mul positive).mp hround) (Nat.div_mul_le_self ..)
    · exact (Nat.mul_le_mul_right period (Nat.le_of_not_lt hround)).trans hyoung

/-- Only time makes anything older. -/
theorem of_still (h : IsTended period retention c) {c' : Correlation α} (hnow : c'.now = c.now)
    (hsweeper : c'.sweeper = c.sweeper)
    (hentries : ∀ key e, c'.entries.get? key = some e → e.since = c.now ∨ c.entries.get? key = some e) :
    IsTended period retention c' := by
  refine ⟨by rw [hnow, hsweeper]; exact h.sweeper, fun key e he => ?_⟩
  rw [hnow]
  obtain hnew | hold := hentries key e he
  · rw [hnew]
    exact ⟨le_rfl, (Nat.div_mul_le_self ..).trans (Nat.le_add_right ..)⟩
  · exact h.young key e hold

theorem call (h : IsTended period retention c) (call : Waits.Call α) :
    IsTended period retention (c.call call).2 := by
  have hentries : ∀ key e, (c.call call).2.entries.get? key = some e →
      e.since = c.now ∨ c.entries.get? key = some e := by
    intro key e he
    obtain ⟨v, -, rfl⟩ | ⟨hold, -⟩ := get?_entries_call call he
    · exact .inl rfl
    · exact .inr hold
  cases call with
  | set key value =>
      refine h.of_still ?_ ?_ hentries <;> simp only [Correlation.call, set] <;> split <;> rfl
  | get _ | size => exact h
  | wait id key patience =>
      refine h.of_still ?_ ?_ hentries <;> simp only [Correlation.call] <;> cases hkey : c.get? key with
      | some v => rw [wait_of_stored hkey]
      | none =>
          rw [wait_of_missing hkey]
          split <;> rfl
  | sweep retention' => exact h.of_still rfl rfl hentries
  | advance duration => exact h.advance duration

theorem callAll (h : IsTended period retention c) (calls : List (Waits.Call α)) :
    IsTended period retention (c.callAll calls).2 := by
  induction calls generalizing c with
  | nil => exact h
  | cons call calls ih => exact ih (h.call call)

/-- Nothing is as old as the retention and a period more. -/
theorem lt_of_stored (h : IsTended period retention c) (he : c.entries.get? key = some e) :
    c.now < e.since + retention + period := by
  obtain ⟨positive, -⟩ := h.sweeper
  have hnow := Nat.lt_div_mul_add positive (a := c.now)
  have hyoung := (h.young key e he).2
  omega

end IsTended

/-- What a sweep removes and what it leaves. -/
structure SweepSpec (c : Correlation α) (retention : Nat) (swept : Nat × Correlation α) : Prop where
  removed : swept.1 = {key | ∃ e, c.entries.get? key = some e ∧ e.since + retention < c.now}.ncard
  kept : ∀ key e, swept.2.entries.get? key = some e ↔
    c.entries.get? key = some e ∧ c.now ≤ e.since + retention
  /-- Nothing but the entries has changed, and nobody's wait is over. -/
  others : swept.2 = { c with entries := swept.2.entries }

theorem sweepSpec (c : Correlation α) (retention : Nat) : c.SweepSpec retention (c.sweep retention) :=
  ⟨c.sweep_fst retention, fun _ _ => get?_kept, rfl⟩

/-- What the store with a sweeper has come to by calls. -/
structure KeepsTimes (period retention : Nat) (calls : List (Waits.Call α)) (c : Correlation α) : Prop where
  /-- What is stored was set last under its key, and not long ago. -/
  bounded : ∀ key e, c.entries.get? key = some e →
    (∃ before after, calls = before ++ .set key e.value :: after ∧ (∀ v, .set key v ∉ after) ∧
      e.since = ((withSweeper period retention).callAll before).2.now) ∧
    c.now < e.since + retention + period
  /-- While time passes only that goes which is too old at one of the rounds, at the multiples of the period. -/
  exact : ∀ duration key e, (c.advance duration).2.entries.get? key = some e ↔ c.entries.get? key = some e ∧
    ∀ n, c.now < n * period → n * period ≤ c.now + duration → n * period ≤ e.since + retention
  swept : ∀ retention, c.SweepSpec retention (c.sweep retention)

theorem keepsTimes (hperiod : 0 < period) (calls : List (Waits.Call α)) :
    KeepsTimes period retention calls ((withSweeper period retention).callAll calls).2 :=
  have htended := (isTended_withSweeper hperiod).callAll calls
  { bounded _ _ he := ⟨exists_last_set rfl calls he, htended.lt_of_stored he⟩
    exact duration _ _ := htended.get?_advance duration
    swept := sweepSpec _ }

end Correlation

/-! ## Tasks -/

namespace Waits

variable {σ : Type} [Signal σ] {α : Type} {s s' : Waits σ α}

/-- A sweep wakes all who wait, and none of them is done. However the tasks are scheduled, they come to rest
as they were. -/
theorem leads_swept [LawfulSignal σ] (hs : s.Valid) (hsettled : s.IsSettled) (retention : Nat)
    (log : List (Event α)) :
    Leads (fun log' s' => s'.IsSettled ∧ log' = log ++ [.swept (s.store.dropped retention)] ∧
        s'.store = (s.store.sweep retention).2 ∧ s'.waiters = s.waiters)
      (log ++ (s.call (.sweep retention)).1) (s.call (.sweep retention)).2 := by
  refine leads_of_kept (I := fun log' s' => log' = log ++ [.swept (s.store.dropped retention)] ∧
    s'.store = (s.store.sweep retention).2 ∧ s'.waiters = s.waiters) ⟨rfl, rfl, rfl⟩ ?_ fun _ _ h hrest => ⟨hrest, h⟩
  rintro log' u es u' ⟨rfl, hstore, hwaiters⟩ hwork
  obtain ⟨rfl, hstore', hwaiters'⟩ | ⟨before, w, after, result, hbefore, -, -, hresult⟩ := hwork.quiet_or_ends
  · exact ⟨List.append_nil _, hstore'.trans hstore, hwaiters'.trans hwaiters⟩
  · -- Neither is there anything for a waiter, nor has a deadline come.
    have hw : w ∈ s.waiters := by
      rw [← hwaiters, hbefore]
      exact List.mem_append_cons_self
    obtain ⟨hnone, hdeadline⟩ := hsettled.not_ends hs hw
    rw [hstore] at hresult
    obtain ⟨v, -, hget, -⟩ | ⟨-, hdue, -⟩ := hresult
    · rw [Correlation.get?_sweep, hnone, ite_self] at hget
      cases hget
    · exact absurd hdue (Nat.not_le_of_lt hdeadline)

theorem entries_call {c : Call α} {key : String} {e : Stored α}
    (h : (s.call c).2.store.entries.get? key = some e) :
    (∃ v, c = .set key v ∧ e = ⟨v, s.store.now⟩) ∨ s.store.entries.get? key = some e ∧ ∀ v, c ≠ .set key v := by
  cases c with
  | set _ _ | get _ | size | sweep _ | advance _ => exact Correlation.get?_entries_call _ h
  | wait _ _ _ => exact .inr ⟨h, nofun⟩

theorem Work.entries {es : List (Event α)} (h : Work s es s') :
    s'.store.now = s.store.now ∧ (∀ key v, .stored key v ∉ es) ∧
      ∀ key e, s'.store.entries.get? key = some e → s.store.entries.get? key = some e := by
  obtain ⟨rfl, hstore, -⟩ | ⟨_, w, _, result, -, -, rfl, hresult⟩ := h.quiet_or_ends
  · rw [hstore]
    exact ⟨rfl, nofun, fun _ _ he => he⟩
  · refine ⟨?_, by simp, fun key e he => ?_⟩
    · obtain ⟨v, -, -, hstore⟩ | ⟨-, -, hstore⟩ := hresult <;> rw [hstore]
    · obtain ⟨v, -, -, hstore⟩ | ⟨-, -, hstore⟩ := hresult
      · rw [hstore, KeyMap.get?_erase] at he
        split at he
        · cases he
        · exact he
      · rwa [hstore] at he

end Waits

/-- A store that is shared by tasks, with one among them that sweeps it at regular times. -/
structure Tended (σ : Type) [Signal σ] (α : Type) where
  waits : Waits σ α
  /-- When the next round is due. -/
  next : Nat

namespace Tended

variable {σ : Type} [Signal σ] {α : Type} {period retention : Nat} {log : List (Nat × Waits.Event α)}
  {s : Tended σ α}

def now (s : Tended σ α) : Nat := s.waits.store.now

/-- What is reached by calls and work in any order, with what has happened and when. Time does not go past a
round that is due. -/
inductive Reached (period retention : Nat) : List (Nat × Waits.Event α) → Tended σ α → Prop where
  | start (signal : σ) : Reached period retention [] ⟨⟨.empty, signal, [], 0⟩, period⟩
  | call {log : List (Nat × Waits.Event α)} {s : Tended σ α} (h : Reached period retention log s)
      (c : Waits.Call α) (hc : ∀ duration, c ≠ .advance duration) :
      Reached period retention (log ++ (s.waits.call c).1.map (s.now, ·)) { s with waits := (s.waits.call c).2 }
  | work {log : List (Nat × Waits.Event α)} {s : Tended σ α} {es : List (Waits.Event α)} {waits : Waits σ α}
      (h : Reached period retention log s) (hwork : Waits.Work s.waits es waits) :
      Reached period retention (log ++ es.map (s.now, ·)) { s with waits }
  | pass {log : List (Nat × Waits.Event α)} {s : Tended σ α} (h : Reached period retention log s)
      (duration : Nat) (hround : s.now + duration ≤ s.next) :
      Reached period retention log { s with waits := (s.waits.call (.advance duration)).2 }
  | round {log : List (Nat × Waits.Event α)} {s : Tended σ α} (h : Reached period retention log s)
      (hdue : s.next = s.now) :
      Reached period retention (log ++ (s.waits.call (.sweep retention)).1.map (s.now, ·))
        ⟨(s.waits.call (.sweep retention)).2, s.next + period⟩

/-- The value was set last under its key, at the time since which it is there. -/
def IsLastSet (log : List (Nat × Waits.Event α)) (key : String) (e : Stored α) : Prop :=
  ∃ before after, log = before ++ (e.since, .stored key e.value) :: after ∧
    ∀ time v, (time, .stored key v) ∉ after

theorem IsLastSet.append {key : String} {e : Stored α} (h : IsLastSet log key e)
    {more : List (Nat × Waits.Event α)} (hmore : ∀ time v, (time, .stored key v) ∉ more) :
    IsLastSet (log ++ more) key e := by
  obtain ⟨before, after, rfl, hafter⟩ := h
  refine ⟨before, after ++ more, List.append_assoc .., fun time v hmem => ?_⟩
  exact (List.mem_append.mp hmem).elim (hafter time v) (hmore time v)

theorem Reached.valid [LawfulSignal σ] (h : Reached period retention log s) : s.waits.Valid := by
  induction h with
  | start signal => exact Waits.valid_start signal
  | call _ c _ ih => exact ih.call c
  | work _ hwork ih => exact ih.work hwork
  | pass _ duration _ ih => exact ih.call (.advance duration)
  | round _ _ ih => exact ih.call (.sweep retention)

/-- The next round is due within a period, and what is stored was set last under its key and not too long
before that round. -/
structure InTime (period retention : Nat) (log : List (Nat × Waits.Event α)) (s : Tended σ α) : Prop where
  ahead : s.now ≤ s.next
  within : s.next ≤ s.now + period
  young : ∀ key e, s.waits.store.entries.get? key = some e →
    IsLastSet log key e ∧ s.next ≤ e.since + retention + period

theorem now_call {waits : Waits σ α} {c : Waits.Call α} (hc : ∀ duration, c ≠ .advance duration) :
    (waits.call c).2.store.now = waits.store.now := by
  cases c with
  | set key value =>
      simp only [Waits.call, Correlation.set]
      split <;> rfl
  | get _ | size | wait _ _ _ | sweep _ => rfl
  | advance duration => exact absurd rfl (hc duration)

/-- A call that is not a `set` of the key tells of none. -/
theorem not_stored_of_call {waits : Waits σ α} {c : Waits.Call α} {key : String} (hc : ∀ v, c ≠ .set key v)
    (now time : Nat) (v : α) : (time, .stored key v) ∉ (waits.call c).1.map (now, ·) := by
  cases c with
  | set k value =>
      have hne : k ≠ key := fun heq => hc value (heq ▸ rfl)
      simp [Waits.call, Ne.symm hne]
  | get _ | size | wait _ _ _ | sweep _ | advance _ => simp [Waits.call]

theorem Reached.inTime (h : Reached period retention log s) : s.InTime period retention log := by
  induction h with
  | start signal => exact ⟨Nat.zero_le _, (Nat.zero_add period).ge, nofun⟩
  | @call log s _ c hc ih =>
      have hnow : (s.waits.call c).2.store.now = s.now := now_call hc
      refine ⟨hnow.trans_le ih.ahead, ih.within.trans_eq (congrArg (· + period) hnow.symm), fun key e he => ?_⟩
      obtain ⟨v, rfl, rfl⟩ | ⟨he, hne⟩ := Waits.entries_call he
      · refine ⟨⟨log, [], rfl, nofun⟩, ?_⟩
        have hwithin : s.next ≤ s.now + period := ih.within
        change s.next ≤ s.now + retention + period
        omega
      · obtain ⟨hlast, hnext⟩ := ih.young key e he
        exact ⟨hlast.append (not_stored_of_call hne s.now), hnext⟩
  | @work log s es waits _ hwork ih =>
      obtain ⟨hnow, hes, hentries⟩ := hwork.entries
      refine ⟨hnow.trans_le ih.ahead, ih.within.trans_eq (congrArg (· + period) hnow.symm), fun key e he => ?_⟩
      obtain ⟨hlast, hnext⟩ := ih.young key e (hentries key e he)
      refine ⟨hlast.append fun time v hmem => ?_, hnext⟩
      obtain ⟨event, hevent, heq⟩ := List.mem_map.mp hmem
      cases heq
      exact hes key v hevent
  | @pass log s _ duration hround ih =>
      have hnow : (s.waits.call (.advance duration)).2.store.now = s.now + duration := Correlation.now_advance duration
      refine ⟨hnow.trans_le hround, ?_, fun key e he => ?_⟩
      · have hwithin := ih.within
        rw [now, hnow]
        change s.next ≤ _
        omega
      · obtain ⟨v, hset, -⟩ | ⟨he, -⟩ := Waits.entries_call he
        · cases hset
        · exact ih.young key e he
  | @round log s _ hdue ih =>
      have hnow : (s.waits.call (.sweep retention)).2.store.now = s.now := rfl
      refine ⟨?_, ?_, fun key e he => ?_⟩
      · rw [now, hnow, hdue]
        exact Nat.le_add_right ..
      · rw [now, hnow, hdue]
      · obtain ⟨he, hkept⟩ := Correlation.get?_kept.mp he
        obtain ⟨hlast, -⟩ := ih.young key e he
        refine ⟨hlast.append (not_stored_of_call nofun s.now), ?_⟩
        rw [hdue]
        exact Nat.add_le_add_right hkept period

/-- What the tasks with a sweeper among them have come to. -/
structure KeepsTimes (period retention : Nat) (log : List (Nat × Waits.Event α)) (s : Tended σ α) : Prop where
  bounded : ∀ key e, s.waits.store.entries.get? key = some e →
    IsLastSet log key e ∧ s.now ≤ e.since + retention + period
  /-- A round, or any other sweep, drops what is too old and nothing else. -/
  swept : ∀ retention, (s.waits.call (.sweep retention)).2.store = (s.waits.store.sweep retention).2 ∧
    s.waits.store.SweepSpec retention (s.waits.store.sweep retention)
  /-- It wakes all who wait, but they come to rest as they were. -/
  rests : s.waits.IsSettled → ∀ retention events, Waits.Leads
    (fun events' waits => waits.IsSettled ∧ events' = events ++ [.swept (s.waits.store.dropped retention)] ∧
      waits.store = (s.waits.store.sweep retention).2 ∧ waits.waiters = s.waits.waiters)
    (events ++ (s.waits.call (.sweep retention)).1) (s.waits.call (.sweep retention)).2

theorem Reached.keepsTimes [LawfulSignal σ] (h : Reached period retention log s) :
    s.KeepsTimes period retention log where
  bounded key e he :=
    have hyoung := h.inTime.young key e he
    ⟨hyoung.1, h.inTime.ahead.trans hyoung.2⟩
  swept retention := ⟨rfl, s.waits.store.sweepSpec retention⟩
  rests hsettled retention events := Waits.leads_swept h.valid hsettled retention events

end Tended

/-- Whatever is called and however the tasks are scheduled: what is stored was set at most the retention and
a period ago, a round of the sweeper drops what is older than the retention and nothing else, and no sweep ends
a wait. -/
theorem sweeper_keeps_times (α : Type) {period retention : Nat} (hperiod : 0 < period) :
    (∀ calls : List (Waits.Call α), Correlation.KeepsTimes period retention calls
      ((Correlation.withSweeper period retention).callAll calls).2) ∧
    ∀ (σ : Type) [Signal σ] [LawfulSignal σ] (log : List (Nat × Waits.Event α)) (s : Tended σ α),
      Tended.Reached period retention log s → s.KeepsTimes period retention log :=
  ⟨Correlation.keepsTimes hperiod, fun _ _ _ _ _ h => h.keepsTimes⟩

/-- With a period of 2 and a retention of 3, what is set at 1 is kept by the round at 4, being 3 old, and goes
with the one at 6. -/
theorem sweeper_keeps_times_boundary :
    let c : Correlation Nat := ((Correlation.withSweeper 2 3).callAll [.advance 1, .set "k" 7]).2
    (c.advance 4).2.entries.get? "k" = some ⟨7, 1⟩ ∧ (c.advance 5).2.entries.get? "k" = none ∧
      ∃ log, ∃ s : Tended Broadcasts Nat, Tended.Reached 2 3 log s ∧ s.now = 2 ∧ s.next = 4 ∧
        Tended.IsLastSet log "k" ⟨7, 1⟩ := by
  intro c
  obtain ⟨hcalls, htasks⟩ := @sweeper_keeps_times Nat 2 3 (by decide)
  have hexact := (hcalls [.advance 1, .set "k" 7]).exact
  have hstored : c.entries.get? "k" = some ⟨7, 1⟩ := by rfl
  have hnow : c.now = 1 := by rfl
  refine ⟨(hexact 4 "k" ⟨7, 1⟩).mpr ⟨hstored, fun n _ hn => ?_⟩, ?_, ?_⟩
  · change n * 2 ≤ 1 + 4 at hn
    change n * 2 ≤ 1 + 3
    omega
  · cases he : (c.advance 5).2.entries.get? "k" with
    | none => rfl
    | some e =>
        obtain ⟨hbefore, hrounds⟩ := (hexact 5 "k" e).mp he
        obtain rfl : e = ⟨7, 1⟩ := Option.some.inj (hbefore.symm.trans hstored)
        exact absurd (hrounds 3 (by decide) (by decide)) (by decide)
  · let s₀ : Tended Broadcasts Nat := ⟨⟨.empty, ⟨0⟩, [], 0⟩, 2⟩
    have hstart : Tended.Reached 2 3 [] s₀ := .start _
    have hset := (hstart.pass 1 (by decide)).call (.set "k" 7) nofun
    have hround := (hset.pass 1 (by decide)).round rfl
    exact ⟨_, _, hround, rfl, rfl, ((htasks Broadcasts _ _ hround).bounded "k" ⟨7, 1⟩ rfl).1⟩

end EdgeFleet
