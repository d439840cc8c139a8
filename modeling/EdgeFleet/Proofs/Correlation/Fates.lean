import EdgeFleet.Proofs.Correlation.Tasks
import Mathlib.Data.List.Induction
import Mathlib.Data.List.Perm.Basic

/-! # What becomes of every value

What is stored is read off from what has happened: a value stays under its key until the next event that
touches the key, and that event says what became of it.
-/

namespace EdgeFleet.Waits

variable {σ : Type} [Signal σ] {α : Type} {clock : Waits σ α → Nat → Prop} {calls : List (Call α)}
  {log after : List (Event α)} {s s' : Waits σ α} {e : Event α} {key : String} {v : α}

/-! ## What is held -/

/-- What an event leaves under a key. -/
def Event.leaves (key : String) (held : Option α) : Event α → Option α
  | .stored k v => if key = k then some v else held
  | .swept keys => if key ∈ keys then none else held
  | .ended w _ (some _) => if key = w.key then none else held
  | .looked _ _ | .counted _ | .began _ | .ended _ _ none => held

/-- What is under a key after all that has happened. -/
def held (key : String) (log : List (Event α)) : Option α :=
  log.foldl (fun held e => e.leaves key held) none

/-- What can become of a value. -/
inductive Fate (α : Type) where
  | kept
  | replaced
  | returned (w : Waiter) (time : Nat) (value : α)
  | dropped

/-- What an event makes of the value under a key. -/
def Event.fate? (key : String) : Event α → Option (Fate α)
  | .stored k _ => if key = k then some .replaced else none
  | .swept keys => if key ∈ keys then some .dropped else none
  | .ended w time (some v) => if key = w.key then some (.returned w time v) else none
  | .looked _ _ | .counted _ | .began _ | .ended _ _ none => none

/-- What has become of a value that was stored under a key, by what has happened since. -/
def fate (key : String) (after : List (Event α)) : Fate α :=
  (after.findSome? (·.fate? key)).getD .kept

theorem Event.fate?_ne_kept : e.fate? key ≠ some .kept := by
  unfold fate?
  split <;> grind

theorem Event.leaves_of_fate? (h : e.fate? key = none) (held : Option α) : e.leaves key held = held := by
  unfold fate? at h
  unfold leaves
  split at h <;> simp_all

/-- What is there after an event was there before, or has just been stored. -/
theorem Event.of_leaves {held : Option α} (h : e.leaves key held = some v) :
    e = .stored key v ∨ e.fate? key = none ∧ held = some v := by
  unfold leaves at h
  unfold fate?
  split at h <;> grind

theorem fate_eq_kept_iff : fate key after = .kept ↔ ∀ e ∈ after, e.fate? key = none := by
  rw [← List.findSome?_eq_none_iff, fate]
  cases hfind : after.findSome? (·.fate? key) with
  | none => simp
  | some f =>
      obtain ⟨e, -, he⟩ := List.exists_of_findSome?_eq_some hfind
      simp only [Option.getD_some, reduceCtorEq, iff_false]
      rintro rfl
      exact Event.fate?_ne_kept he

theorem held_concat (key : String) (log : List (Event α)) (e : Event α) :
    held key (log ++ [e]) = e.leaves key (held key log) := by
  rw [held, List.foldl_append]
  rfl

theorem held_append_of_kept (log : List (Event α)) (h : fate key after = .kept) :
    held key (log ++ after) = held key log := by
  induction after using List.reverseRecOn with
  | nil => rw [List.append_nil]
  | append_singleton after e ih =>
      rw [fate_eq_kept_iff] at h ih
      rw [← List.append_assoc, held_concat, Event.leaves_of_fate? (h e (by simp)),
        ih fun e he => h e (List.mem_append_left _ he)]

/-- What is held was stored and has been kept since. -/
theorem held_eq_some_iff : held key log = some v ↔
    ∃ before after, log = before ++ .stored key v :: after ∧ fate key after = .kept := by
  constructor
  · intro h
    induction log using List.reverseRecOn with
    | nil => cases h
    | append_singleton log e ih =>
        rw [held_concat] at h
        obtain rfl | ⟨he, h⟩ := Event.of_leaves h
        · exact ⟨log, [], rfl, rfl⟩
        · obtain ⟨before, after, rfl, hkept⟩ := ih h
          rw [fate_eq_kept_iff] at hkept
          refine ⟨before, after ++ [e], by simp, fate_eq_kept_iff.mpr fun e' he' => ?_⟩
          obtain he' | he' := List.mem_append.mp he'
          · exact hkept e' he'
          · rw [List.mem_singleton.mp he', he]
  · rintro ⟨before, after, rfl, hkept⟩
    rw [List.append_cons, held_append_of_kept _ hkept, held_concat, Event.leaves, if_pos rfl]

theorem kept_unique {before before' after' : List (Event α)} {v' : α}
    (h : before ++ .stored key v :: after = before' ++ .stored key v' :: after')
    (hkept : fate key after = .kept) (hkept' : fate key after' = .kept) :
    before = before' ∧ v = v' ∧ after = after' := by
  have hnot : ∀ {u : α} {after : List (Event α)}, fate key after = .kept → .stored key u ∉ after := by
    intro u after hkept hmem
    have hfate := fate_eq_kept_iff.mp hkept _ hmem
    simp [Event.fate?] at hfate
  -- If they were at different places, the later one would have replaced the other.
  obtain ⟨between, rfl, heq⟩ | ⟨between, rfl, heq⟩ := List.append_eq_append_iff.mp h
  · cases between with
    | nil =>
        cases heq
        simp
    | cons _ between =>
        cases heq
        exact absurd (List.mem_append_cons_self ..) (hnot hkept)
  · cases between with
    | nil =>
        cases heq
        simp
    | cons _ between =>
        cases heq
        exact absurd (List.mem_append_cons_self ..) (hnot hkept')

/-! ## The books -/

def Event.began? : Event α → Option Waiter
  | .began w => some w
  | .stored _ _ | .swept _ | .looked _ _ | .counted _ | .ended _ _ _ => none

def Event.ended? : Event α → Option Waiter
  | .ended w _ _ => some w
  | .stored _ _ | .swept _ | .looked _ _ | .counted _ | .began _ => none

/-- An event agrees with what happened before: what it shows, returns or drops was held then, and a wait
that ends without a value has come to its deadline. -/
def Event.Agrees (before : List (Event α)) : Event α → Prop
  | .swept keys => ∀ key ∈ keys, (held key before).isSome
  | .looked key value => value = held key before
  | .counted size => ∃ keys : List String, keys.Nodup ∧ keys.length = size ∧
      ∀ key, key ∈ keys ↔ (held key before).isSome
  | .ended w _ (some v) => held w.key before = some v
  | .ended w time none => w.deadline ≤ time
  | .stored _ _ | .began _ => True

/-- The store is what has happened says, every event agrees with the ones before, and each wait that began
has ended once or is pending. -/
structure Books (log : List (Event α)) (s : Waits σ α) : Prop where
  content : ∀ key, s.store.get? key = held key log
  agrees : ∀ before e after, log = before ++ e :: after → e.Agrees before
  waits : (log.filterMap Event.began?).Perm (log.filterMap Event.ended? ++ s.waiters)

theorem Books.quiet (h : Books log s) (hget : ∀ key, s'.store.get? key = s.store.get? key)
    (hwaiters : s'.waiters = s.waiters) : Books (log ++ []) s' := by
  rw [List.append_nil]
  exact ⟨fun key => (hget key).trans (h.content key), h.agrees, hwaiters ▸ h.waits⟩

open scoped List in
theorem Books.event (h : Books log s) (hagrees : e.Agrees log)
    (hget : ∀ key, s'.store.get? key = e.leaves key (s.store.get? key))
    (hwaits : e.began?.toList ++ s.waiters ~ e.ended?.toList ++ s'.waiters) :
    Books (log ++ [e]) s' := by
  refine ⟨fun key => ?_, fun before e' after heq => ?_, ?_⟩
  · rw [hget, h.content, held_concat]
  · obtain rfl | ⟨after, e'', rfl⟩ := List.eq_nil_or_concat after
    · obtain ⟨rfl, hlast⟩ := List.append_inj' heq rfl
      rwa [← List.singleton_injective hlast]
    · rw [List.concat_eq_append, ← List.cons_append, ← List.append_assoc] at heq
      exact h.agrees before e' after (List.append_inj' heq rfl).1
  · have hsingle : ∀ f : Event α → Option Waiter, [e].filterMap f = (f e).toList := by
      intro f
      rw [List.filterMap_cons, List.filterMap_nil]
      cases f e <;> rfl
    rw [List.filterMap_append, List.filterMap_append, hsingle, hsingle]
    calc log.filterMap Event.began? ++ e.began?.toList
      _ ~ log.filterMap Event.ended? ++ s.waiters ++ e.began?.toList := h.waits.append_right _
      _ ~ log.filterMap Event.ended? ++ (e.began?.toList ++ s.waiters) := by
          rw [List.append_assoc]
          exact List.perm_append_comm.append_left _
      _ ~ log.filterMap Event.ended? ++ (e.ended?.toList ++ s'.waiters) := hwaits.append_left _
      _ = _ := (List.append_assoc ..).symm

theorem Books.call (h : Books log s) (hs : s.Valid) (c : Call α) : Books (log ++ (s.call c).1) (s.call c).2 := by
  cases c with
  | set key value =>
      rw [call_set hs]
      exact h.event trivial (fun i => Correlation.get?_insert value) .rfl
  | get key => exact h.event (h.content key) (fun _ => rfl) .rfl
  | size =>
      refine h.event ⟨s.store.entries.keys, KeyMap.nodup_keys _, List.length_map _, fun key => ?_⟩ (fun _ => rfl) .rfl
      rw [KeyMap.mem_keys, ← h.content, Correlation.get?, Option.isSome_map]
  | wait id key patience =>
      refine h.event trivial (fun _ => rfl) ?_
      simp only [Event.began?, Event.ended?, Option.toList, waiters, Waits.call, List.map_append]
      exact List.perm_append_comm
  | sweep retention =>
      refine h.event (fun key hkey => ?_) (fun i => Correlation.get?_sweep retention i) .rfl
      rw [← h.content]
      exact (Correlation.mem_dropped.mp hkey).1
  | advance duration =>
      rw [call_advance hs]
      exact h.quiet (fun _ => rfl) rfl

theorem Books.work (h : Books log s) {es : List (Event α)} (hwork : Work s es s') : Books (log ++ es) s' := by
  obtain ⟨rfl, hstore, hwaiters⟩ | ⟨before, w, after, result, hbefore, hafter, rfl, hresult⟩ :=
    hwork.quiet_or_ends
  · exact h.quiet (fun _ => by rw [hstore]) hwaiters
  · have hwaits : (w :: (before ++ after)).Perm (before ++ w :: after) := List.perm_middle.symm
    obtain ⟨v, rfl, hv, hstore⟩ | ⟨rfl, hdue, hstore⟩ := hresult
    · refine h.event ((h.content w.key).symm.trans hv) (fun i => ?_) ?_
      · rw [hstore, Correlation.get?_erase, Event.leaves]
      · rw [hbefore, hafter]
        exact hwaits.symm
    · refine h.event hdue (fun i => by rw [hstore, Event.leaves]) ?_
      rw [hbefore, hafter]
      exact hwaits.symm

/-! ## What the books tell of every value -/

/-- The value was stored under the key and has been kept since, and that just once. -/
def IsHeldOnce (key : String) (v : α) (log : List (Event α)) : Prop :=
  ∃! p : List (Event α) × List (Event α), log = p.1 ++ .stored key v :: p.2 ∧ fate key p.2 = .kept

theorem isHeldOnce_iff : IsHeldOnce key v log ↔ held key log = some v := by
  rw [held_eq_some_iff]
  constructor
  · rintro ⟨⟨before, after⟩, h, -⟩
    exact ⟨before, after, h⟩
  · rintro ⟨before, after, hlog, hkept⟩
    refine ⟨(before, after), ⟨hlog, hkept⟩, ?_⟩
    rintro ⟨before', after'⟩ ⟨hlog', hkept'⟩
    obtain ⟨rfl, -, rfl⟩ := kept_unique (hlog'.symm.trans hlog) hkept' hkept
    rfl

/-- Every value that was stored has one fate, and what is stored, shown, returned or dropped is a value that
was stored once and had been kept until then. -/
structure Accounted (log : List (Event α)) (s : Waits σ α) : Prop where
  kept : ∀ before key v after, log = before ++ .stored key v :: after → fate key after = .kept →
    s.store.get? key = some v
  returned : ∀ before key v after w time u, log = before ++ .stored key v :: after →
    fate key after = .returned w time u → w.key = key ∧ u = v
  content : ∀ key v, s.store.get? key = some v ↔ IsHeldOnce key v log
  answered : ∀ before w time v after, log = before ++ .ended w time (some v) :: after →
    IsHeldOnce w.key v before
  dropped : ∀ before keys after, log = before ++ .swept keys :: after →
    ∀ key ∈ keys, ∃ v, IsHeldOnce key v before
  looked : ∀ before key value after, log = before ++ .looked key value :: after →
    ∀ v, value = some v ↔ IsHeldOnce key v before
  counted : ∀ before size after, log = before ++ .counted size :: after →
    ∃ keys : List String, keys.Nodup ∧ keys.length = size ∧ ∀ key, key ∈ keys ↔ ∃ v, IsHeldOnce key v before
  waits : (log.filterMap Event.began?).Perm (log.filterMap Event.ended? ++ s.waiters)

theorem Event.fate?_eq_returned {w : Waiter} {time : Nat} (h : e.fate? key = some (.returned w time v)) :
    w.key = key ∧ e = .ended w time (some v) := by
  unfold fate? at h
  split at h <;> grind

theorem fate_eq_returned {w : Waiter} {time : Nat} (h : fate key after = .returned w time v) :
    w.key = key ∧ ∃ between later, after = between ++ .ended w time (some v) :: later ∧
      fate key between = .kept := by
  rw [fate] at h
  cases hfind : after.findSome? (·.fate? key) with
  | none =>
      rw [hfind] at h
      cases h
  | some f =>
      obtain ⟨between, e, later, rfl, he, hquiet⟩ := List.findSome?_eq_some_iff.mp hfind
      rw [hfind, Option.getD_some] at h
      obtain ⟨hkey, rfl⟩ := Event.fate?_eq_returned (h ▸ he)
      exact ⟨hkey, between, later, rfl, fate_eq_kept_iff.mpr hquiet⟩

theorem Books.accounted (h : Books log s) : Accounted log s where
  kept before key v after hlog hkept := by
    rw [h.content, held_eq_some_iff]
    exact ⟨before, after, hlog, hkept⟩
  returned before key v after w time u hlog hfate := by
    obtain ⟨rfl, between, later, rfl, hkept⟩ := fate_eq_returned hfate
    rw [← List.cons_append, ← List.append_assoc] at hlog
    have hreturned : held w.key (before ++ .stored w.key v :: between) = some u := h.agrees _ _ _ hlog
    have hstored : held w.key (before ++ .stored w.key v :: between) = some v :=
      held_eq_some_iff.mpr ⟨before, between, rfl, hkept⟩
    rw [hstored] at hreturned
    exact ⟨rfl, (Option.some.inj hreturned).symm⟩
  content key v := by rw [isHeldOnce_iff, h.content]
  answered _ _ _ _ _ hlog := isHeldOnce_iff.mpr (h.agrees _ _ _ hlog)
  dropped _ _ _ hlog := by
    simpa only [Event.Agrees, isHeldOnce_iff, ← Option.isSome_iff_exists] using h.agrees _ _ _ hlog
  looked _ _ _ _ hlog v := by rw [isHeldOnce_iff, h.agrees _ _ _ hlog]
  counted _ _ _ hlog := by
    simpa only [Event.Agrees, isHeldOnce_iff, ← Option.isSome_iff_exists] using h.agrees _ _ _ hlog
  waits := h.waits

variable [LawfulSignal σ]

theorem Reached.books (h : Reached clock calls log s) : Books log s := by
  induction h with
  | start _ => exact ⟨fun _ => rfl, fun _ _ _ heq => by simp at heq, .nil⟩
  | call h c _ ih => exact ih.call h.valid c
  | work _ hwork ih => exact ih.work hwork

end EdgeFleet.Waits
