import EdgeFleet.Correlation
import EdgeFleet.KeyMap.Lemmas

/-! # What is stored and who waits

Values come into the store only by `set`, and every wait ends either with what was stored or set under its
key or without a value.
-/

namespace EdgeFleet.Correlation

variable {α : Type} {c : Correlation α} {i : String} {v : α}

/-! ## Stored values -/

theorem get?_set_of_ne {key : String} (h : i ≠ key) (value : α) :
    (c.set key value).2.get? i = c.get? i := by
  rw [set]
  split
  · rw [get?, KeyMap.get?_erase, if_neg h]
    rfl
  · rw [get?, KeyMap.get?_insert, if_neg h]
    rfl

/-- What is stored after a value came was stored before, or is that value. -/
theorem of_get?_set {key : String} {value : α} (h : (c.set key value).2.get? i = some v) :
    c.get? i = some v ∨ i = key ∧ v = value := by
  by_cases hi : i = key
  · subst hi
    rw [set] at h
    split at h
    · simp [get?, KeyMap.get?_erase] at h
    · simp only [get?, KeyMap.get?_insert_self, Option.map_some, Option.some.injEq] at h
      exact .inr ⟨rfl, h.symm⟩
  · rw [get?_set_of_ne hi] at h
    exact .inl h

theorem of_get?_erase {key : String} (h : { c with entries := c.entries.erase key }.get? i = some v) :
    c.get? i = some v := by
  rw [get?, KeyMap.get?_erase] at h
  split at h
  · cases h
  · exact h

theorem get?_insert {key i : String} (value : α) :
    { c with entries := c.entries.insert key ⟨value, c.now⟩ }.get? i =
      if i = key then some value else c.get? i := by
  rw [get?, KeyMap.get?_insert]
  split <;> rfl

theorem get?_erase {key i : String} :
    { c with entries := c.entries.erase key }.get? i =
      if i = key then none else c.get? i := by
  rw [get?, KeyMap.get?_erase]
  split <;> rfl

theorem pop?_eq_none_iff {key : String} : c.pop? key = none ↔ c.get? key = none := by
  rw [pop?, Option.map_eq_none_iff]

theorem pop?_eq_some_iff {key : String} {c' : Correlation α} :
    c.pop? key = some (v, c') ↔ c.get? key = some v ∧ c' = { c with entries := c.entries.erase key } := by
  rw [pop?, Option.map_eq_some_iff]
  constructor
  · rintro ⟨u, hu, h⟩
    cases h
    exact ⟨hu, rfl⟩
  · rintro ⟨hv, rfl⟩
    exact ⟨v, hv, rfl⟩

/-! ## Waits -/

theorem wait_of_stored {key : String} (h : c.get? key = some v) (id : String) (patience : Nat) :
    c.wait id key patience = (some ⟨id, some v, 0⟩, { c with entries := c.entries.erase key }) := by
  rw [wait, pop?, h]
  rfl

theorem wait_of_missing {key : String} (h : c.get? key = none) (id : String) (patience : Nat) :
    c.wait id key patience =
      if patience = 0 then (some ⟨id, none, 0⟩, c)
      else (none, { c with waiters := c.waiters ++ [⟨id, key, c.now, c.now + patience⟩] }) := by
  rw [wait, pop?, h]
  rfl

theorem of_get?_wait {id key : String} {patience : Nat}
    (h : (c.wait id key patience).2.get? i = some v) : c.get? i = some v := by
  cases hkey : c.get? key with
  | some _ =>
      rw [wait_of_stored hkey] at h
      exact of_get?_erase h
  | none =>
      rw [wait_of_missing hkey] at h
      split at h <;> exact h

/-- A wait ends at once with what is stored under its key, or without a value. -/
theorem wait_eq_some {id key : String} {patience : Nat} {ended : Ended α} {c' : Correlation α}
    (h : c.wait id key patience = (some ended, c')) :
    ended.id = id ∧ c'.waiters = c.waiters ∧ ∀ v, ended.value = some v → c.get? key = some v := by
  cases hkey : c.get? key with
  | some v =>
      rw [wait_of_stored hkey] at h
      cases h
      exact ⟨rfl, rfl, fun _ hv => hv⟩
  | none =>
      rw [wait_of_missing hkey] at h
      split at h <;> cases h
      exact ⟨rfl, rfl, fun _ hv => hv⟩

theorem wait_eq_none {id key : String} {patience : Nat} {c' : Correlation α}
    (h : c.wait id key patience = (none, c')) :
    c'.waiters = c.waiters ++ [⟨id, key, c.now, c.now + patience⟩] := by
  cases hkey : c.get? key with
  | some v =>
      rw [wait_of_stored hkey] at h
      cases h
  | none =>
      rw [wait_of_missing hkey] at h
      split at h <;> cases h
      rfl

/-- A value that ends a wait goes to someone who waits for its key. -/
theorem set_eq_some {key : String} {value : α} {ended : Ended α} {c' : Correlation α}
    (h : c.set key value = (some ended, c')) :
    ended.value = some value ∧ (∃ w ∈ c.waiters, w.key = key ∧ ended.id = w.id) ∧
      c'.waiters = c.waiters.eraseP fun w => w.key = key := by
  rw [set] at h
  split at h
  · next w hfind =>
    cases h
    have hkey : w.key = key := by simpa using List.find?_some hfind
    exact ⟨rfl, ⟨w, List.mem_of_find?_eq_some hfind, hkey, rfl⟩, rfl⟩
  · cases h

theorem set_eq_none {key : String} {value : α} {c' : Correlation α}
    (h : c.set key value = (none, c')) : c'.waiters = c.waiters := by
  rw [set] at h
  split at h <;> cases h
  rfl

theorem set_of_no_waiters (h : c.waiters = []) (key : String) (value : α) :
    c.set key value = (none, { c with entries := c.entries.insert key ⟨value, c.now⟩ }) := by
  rw [set, h]
  rfl

/-! ## The passing of time -/

theorem of_get?_kept {entries : KeyMap (Stored α)} {time retention : Nat} {s : Stored α}
    (h : (kept entries time retention).get? i = some s) : entries.get? i = some s := by
  rw [kept, KeyMap.get?_filter, Option.filter_eq_some_iff] at h
  exact h.1

/-- The keys of what a sweep drops. -/
def dropped (c : Correlation α) (retention : Nat) : List String :=
  c.entries.keys.filter fun k => !(c.sweep retention).2.entries.contains k

theorem mem_dropped {retention : Nat} {key : String} :
    key ∈ c.dropped retention ↔ (c.get? key).isSome ∧ (c.sweep retention).2.get? key = none := by
  rw [dropped, List.mem_filter, KeyMap.mem_keys, KeyMap.contains_eq, get?, get?]
  simp

/-- A sweep takes away what it drops and leaves the rest as it is. -/
theorem get?_sweep (retention : Nat) (i : String) :
    (c.sweep retention).2.get? i = if i ∈ c.dropped retention then none else c.get? i := by
  by_cases hi : i ∈ c.dropped retention
  · rw [if_pos hi, (mem_dropped.mp hi).2]
  · rw [if_neg hi]
    rw [mem_dropped, not_and, Option.isSome_iff_ne_none] at hi
    cases hafter : (c.sweep retention).2.get? i with
    | none => exact (Classical.not_not.mp fun hne => hi hne hafter).symm
    | some v =>
        obtain ⟨stored, hstored, rfl⟩ := Option.map_eq_some_iff.mp hafter
        rw [get?, of_get?_kept hstored, Option.map_some]

theorem of_get?_advance {duration : Nat} (h : (c.advance duration).2.get? i = some v) :
    c.get? i = some v := by
  rw [advance] at h
  cases hsweeper : c.sweeper with
  | none =>
      rw [hsweeper] at h
      exact h
  | some s =>
      rw [hsweeper] at h
      simp only [runSweeper] at h
      rw [get?, Option.map_eq_some_iff] at h ⊢
      obtain ⟨stored, hstored, hvalue⟩ := h
      refine ⟨stored, ?_, hvalue⟩
      cases hlast : Sweeper.lastUpTo? s (c.now + duration) with
      | none =>
          rw [hlast] at hstored
          exact hstored
      | some last =>
          rw [hlast] at hstored
          exact of_get?_kept hstored

theorem now_advance (duration : Nat) : (c.advance duration).2.now = c.now + duration := by
  rw [advance, List.partition_eq_filter_filter]
  cases c.sweeper <;> rfl

theorem waiters_advance (duration : Nat) :
    (c.advance duration).2.waiters = c.waiters.filter fun w => !decide (w.deadline ≤ c.now + duration) := by
  rw [advance, List.partition_eq_filter_filter]
  cases c.sweeper <;> rfl

theorem ended_advance (duration : Nat) :
    (c.advance duration).1 = (c.waiters.filter fun w => w.deadline ≤ c.now + duration).map fun w =>
      ⟨w.id, none, w.deadline - w.since⟩ := by
  rw [advance, List.partition_eq_filter_filter]
  cases c.sweeper <;> rfl

theorem advance_of_no_waiters (h : c.waiters = []) (hsweeper : c.sweeper = none) (duration : Nat) :
    c.advance duration = ([], { c with now := c.now + duration }) := by
  rw [advance, h, hsweeper]
  cases c
  cases h
  rfl

theorem advance_of_no_sweeper (h : c.sweeper = none) (duration : Nat) :
    (c.advance duration).2 = { c with
      now := c.now + duration
      waiters := c.waiters.filter fun w => !decide (w.deadline ≤ c.now + duration) } := by
  rw [advance, List.partition_eq_filter_filter, h]
  rfl

theorem advance_zero (h : c.sweeper = none) (hdeadlines : ∀ w ∈ c.waiters, c.now < w.deadline) :
    c.advance 0 = ([], c) := by
  have hnone : ∀ w ∈ c.waiters, decide (w.deadline ≤ c.now + 0) = false := fun w hw =>
    decide_eq_false (Nat.not_le_of_lt (hdeadlines w hw))
  refine Prod.ext ?_ ?_
  · rw [ended_advance, List.filter_eq_nil_iff.mpr fun w hw => by rw [hnone w hw]; exact Bool.false_ne_true]
    rfl
  · rw [advance_of_no_sweeper h, List.filter_eq_self.mpr fun w hw => by rw [hnone w hw]; rfl]
    rfl

/-- Time may pass in two parts. -/
theorem advance_add (h : c.sweeper = none) (d d' : Nat) :
    ((c.advance d).2.advance d').2 = (c.advance (d + d')).2 ∧
      ((c.advance d).1 ++ ((c.advance d).2.advance d').1).Perm (c.advance (d + d')).1 := by
  have hsweeper : (c.advance d).2.sweeper = none := by rw [advance_of_no_sweeper h, h]
  have hdue : ∀ w : Waiter, w.deadline ≤ c.now + d → w.deadline ≤ c.now + (d + d') := fun _ hw =>
    Nat.le_trans hw (Nat.add_le_add_left (Nat.le_add_right d d') c.now)
  constructor
  · rw [advance_of_no_sweeper hsweeper, advance_of_no_sweeper h, advance_of_no_sweeper h, Nat.add_assoc,
      List.filter_filter]
    congr 1
    refine List.filter_congr fun w _ => ?_
    by_cases hw : w.deadline ≤ c.now + d <;> simp [hw, hdue w]
  · have hfirst : c.waiters.filter (fun w => w.deadline ≤ c.now + d) =
        (c.waiters.filter fun w => w.deadline ≤ c.now + (d + d')).filter fun w => w.deadline ≤ c.now + d := by
      rw [List.filter_filter]
      refine List.filter_congr fun w _ => ?_
      by_cases hw : w.deadline ≤ c.now + d <;> simp [hw, hdue w]
    have hsecond : (c.advance d).2.waiters.filter (fun w => w.deadline ≤ (c.advance d).2.now + d') =
        (c.waiters.filter fun w => w.deadline ≤ c.now + (d + d')).filter
          fun w => !decide (w.deadline ≤ c.now + d) := by
      rw [advance_of_no_sweeper h, Nat.add_assoc, List.filter_filter, List.filter_filter]
      exact List.filter_congr fun w _ => Bool.and_comm ..
    rw [ended_advance, ended_advance, ended_advance, ← List.map_append, hfirst, hsecond]
    exact (List.filter_append_perm _ _).map _

end EdgeFleet.Correlation
