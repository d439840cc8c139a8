import EdgeFleet.Snapshot.Replacement
import Mathlib.Algebra.Ring.Nat
import Mathlib.Data.List.Basic
import Mathlib.Data.List.Perm.Basic
import Mathlib.Logic.Relation

/-! # Batches of store calls

The calls of a batch are tried in any order, and a call may be refused on its way to the store. Every
item is accounted for at any time: it waits, its call is under way, or its call is over.
-/

namespace EdgeFleet.Batch

variable {σ α : Type} {e : Effort} {call : σ → α → Bool × σ}

/-! ## One try -/

/-- A call that does not get through to the store. -/
def refuse (store : σ) (_ : α) : Bool × σ := (false, store)

/-- One more try of one of the calls under way, whichever it is. -/
inductive Step (e : Effort) (call : σ → α → Bool × σ) : Batch σ α → Batch σ α → Prop
  | attempt (b : Batch σ α) (k : Nat) : Step e call b (b.attempt e call k)
  | refused (b : Batch σ α) (k : Nat) : Step e call b (b.attempt e refuse k)

/-- Any number of tries. -/
abbrev Steps (e : Effort) (call : σ → α → Bool × σ) : Batch σ α → Batch σ α → Prop :=
  Relation.ReflTransGen (Step e call)

/-- Any number of tries that all get through to the store. -/
abbrev Tries (e : Effort) (call : σ → α → Bool × σ) : Batch σ α → Batch σ α → Prop :=
  Relation.ReflTransGen fun b b' => ∃ k, b' = b.attempt e call k

theorem Tries.steps {b b' : Batch σ α} (h : Tries e call b b') : Steps e call b b' :=
  Relation.ReflTransGen.mono (fun b _ ⟨k, hk⟩ => hk ▸ .attempt b k) _ _ h

/-- A try ends a call or puts it off. -/
theorem attempt_cases (e : Effort) (call : σ → α → Bool × σ) (b : Batch σ α) (k : Nat) :
    b.running[k]? = none ∧ b.attempt e call k = b ∨ ∃ job ok store, b.running[k]? = some job ∧
      call b.store job.item = (ok, store) ∧
      ((ok = true ∨ e.limit ≤ job.tried + 1) ∧ b.attempt e call k = refill e
          { b with
            store
            elapsed := max b.elapsed job.due
            running := b.running.eraseIdx k
            finished := (job.item, ok) :: b.finished } ∨
        ok = false ∧ job.tried + 1 < e.limit ∧ b.attempt e call k =
          { b with
            store
            elapsed := max b.elapsed job.due
            running := b.running.eraseIdx k ++ [⟨job.item, job.tried + 1, max b.elapsed job.due + e.pause⟩] }) := by
  unfold attempt
  cases hk : b.running[k]? with
  | none => exact .inl ⟨rfl, rfl⟩
  | some job =>
      right
      refine ⟨job, (call b.store job.item).1, (call b.store job.item).2, rfl, rfl, ?_⟩
      by_cases hover : (call b.store job.item).1 = true ∨ e.limit ≤ job.tried + 1
      · exact .inl ⟨hover, by simp only [if_pos hover]⟩
      · rw [not_or, Bool.not_eq_true, Nat.not_le] at hover
        refine .inr ⟨hover.1, hover.2, ?_⟩
        simp [hover.1, Nat.not_le.mpr hover.2]

/-! ## Every item is accounted for -/

/-- The batch works off the given items: there is always as much under way as there is room for, and
no call is tried too often. -/
structure Accounts (e : Effort) (items : List α) (b : Batch σ α) : Prop where
  items : (b.finished.map (·.1) ++ (b.running.map (·.item) ++ b.waiting)).Perm items
  room : b.waiting ≠ [] → e.width ≤ b.running.length
  tries : ∀ job ∈ b.running, job.tried < e.limit

namespace Accounts

variable {items : List α} {b b' : Batch σ α}

theorem refill (hitems : (b.finished.map (·.1) ++ (b.running.map (·.item) ++ b.waiting)).Perm items)
    (htries : ∀ job ∈ b.running, job.tried < e.limit) : Accounts e items (b.refill e) where
  items := by
    have hsplit : (b.refill e).running.map (·.item) ++ (b.refill e).waiting =
        b.running.map (·.item) ++ b.waiting := by
      simp [Batch.refill, Function.comp_def]
    rw [hsplit]
    exact hitems
  room := by
    intro hwaiting
    have hlong : e.width - b.running.length < b.waiting.length := by
      by_contra hshort
      exact hwaiting (List.drop_of_length_le (by omega))
    simp only [Batch.refill, List.length_append, List.length_map, List.length_take]
    omega
  tries := by
    intro job hjob
    rcases List.mem_append.mp hjob with hjob | hjob
    · exact htries job hjob
    · obtain ⟨a, -, rfl⟩ := List.mem_map.mp hjob
      exact Nat.lt_of_lt_of_le Nat.zero_lt_one (Nat.le_max_left 1 e.tries)

theorem start (e : Effort) (store : σ) (items : List α) : Accounts e items (Batch.start e store items) :=
  Accounts.refill (List.Perm.refl _) (by simp)

/-- Taking a call out of those under way. -/
theorem eraseIdx_perm {jobs : List (Job α)} {k : Nat} {job : Job α} (h : jobs[k]? = some job) :
    (job.item :: (jobs.eraseIdx k).map (·.item)).Perm (jobs.map (·.item)) := by
  obtain ⟨hk, rfl⟩ := List.getElem?_eq_some_iff.mp h
  exact (List.getElem_cons_eraseIdx_perm hk).map (·.item)

theorem attempt (h : Accounts e items b) (call : σ → α → Bool × σ) (k : Nat) :
    Accounts e items (b.attempt e call k) := by
  rcases attempt_cases e call b k with ⟨-, hsame⟩ | ⟨job, ok, store, hk, -, ⟨-, hover⟩ | ⟨-, hagain, heq⟩⟩
  · rwa [hsame]
  · rw [hover]
    refine Accounts.refill ?_ fun job' hjob => h.tries job' (List.mem_of_mem_eraseIdx hjob)
    refine List.Perm.trans ?_ h.items
    have hmove := ((eraseIdx_perm hk).append_right b.waiting).append_left (b.finished.map (·.1))
    exact List.perm_middle.symm.trans hmove
  · rw [heq]
    refine ⟨?_, ?_, ?_⟩
    · refine List.Perm.trans ?_ h.items
      have hmove := ((eraseIdx_perm hk).append_right b.waiting).append_left (b.finished.map (·.1))
      refine List.Perm.trans ?_ hmove
      simp only [List.map_append, List.map_cons, List.map_nil]
      exact ((List.perm_append_singleton _ _).append_right _).append_left _
    · intro hwaiting
      have hroom := h.room hwaiting
      have hlt : k < b.running.length := (List.getElem?_eq_some_iff.mp hk).1
      simp only [List.length_append, List.length_eraseIdx_of_lt hlt, List.length_singleton]
      omega
    · intro job' hjob
      rcases List.mem_append.mp hjob with hjob | hjob
      · exact h.tries job' (List.mem_of_mem_eraseIdx hjob)
      · rw [List.mem_singleton.mp hjob]
        exact hagain

theorem step (h : Accounts e items b) (hstep : Step e call b b') : Accounts e items b' := by
  cases hstep with
  | attempt k => exact h.attempt call k
  | refused k => exact h.attempt refuse k

theorem steps (h : Accounts e items b) (hsteps : Steps e call b b') : Accounts e items b' := by
  induction hsteps with
  | refl => exact h
  | tail _ hstep ih => exact ih.step hstep

theorem mem_of_running (h : Accounts e items b) {job : Job α} (hjob : job ∈ b.running) :
    job.item ∈ items :=
  h.items.subset (List.mem_append_right _ (List.mem_append_left _ (List.mem_map.mpr ⟨job, hjob, rfl⟩)))

theorem mem_of_finished (h : Accounts e items b) {r : α × Bool} (hr : r ∈ b.finished) : r.1 ∈ items :=
  h.items.subset (List.mem_append_left _ (List.mem_map.mpr ⟨r, hr, rfl⟩))

/-- When nothing is under way any more, the calls of all items are over. -/
theorem finished_perm (h : Accounts e items b) (hdone : b.running = []) :
    (b.finished.map (·.1)).Perm items := by
  have hwaiting : b.waiting = [] := by
    by_contra hne
    have hroom := h.room hne
    have hwidth : 1 ≤ e.width := Nat.le_max_left 1 e.concurrency
    rw [hdone, List.length_nil] at hroom
    omega
  have hitems := h.items
  rw [hdone, hwaiting] at hitems
  simpa using hitems

end Accounts

/-- The account of a batch from its start on. -/
theorem Steps.accounts {store : σ} {items : List α} {b : Batch σ α} (h : Steps e call (start e store items) b) :
    Accounts e items b :=
  Accounts.steps (.start ..) h

theorem Tries.accounts {store : σ} {items : List α} {b : Batch σ α} (h : Tries e call (start e store items) b) :
    Accounts e items b :=
  Steps.accounts (Tries.steps h)

/-! ## Complete runs -/

/-- The tries that are left. -/
def triesLeft (e : Effort) (b : Batch σ α) : Nat :=
  (b.running.map fun job => e.limit - job.tried).sum + e.limit * b.waiting.length

theorem triesLeft_refill (e : Effort) (b : Batch σ α) : triesLeft e (b.refill e) = triesLeft e b := by
  have hwaiting : b.waiting.length =
      min (e.width - b.running.length) b.waiting.length + (b.waiting.length - (e.width - b.running.length)) := by
    omega
  have hstarted : ((b.waiting.take (e.width - b.running.length)).map fun _ => e.limit).sum =
      e.limit * min (e.width - b.running.length) b.waiting.length := by
    simp [Nat.mul_comm]
  simp only [triesLeft, refill, List.map_append, List.map_map, Function.comp_def, List.sum_append,
    Nat.sub_zero, hstarted, List.length_drop]
  conv_rhs => rw [hwaiting, Nat.mul_add]
  omega

theorem sum_eraseIdx {jobs : List (Job α)} {k : Nat} {job : Job α} (h : jobs[k]? = some job)
    (f : Job α → Nat) : f job + ((jobs.eraseIdx k).map f).sum = (jobs.map f).sum := by
  obtain ⟨hk, rfl⟩ := List.getElem?_eq_some_iff.mp h
  have hperm := (List.getElem_cons_eraseIdx_perm hk).map f
  exact hperm.sum_nat

theorem triesLeft_attempt {items : List α} {b : Batch σ α} (h : Accounts e items b)
    (call : σ → α → Bool × σ) {k : Nat} (hk : k < b.running.length) :
    triesLeft e (b.attempt e call k) < triesLeft e b := by
  have hjob := List.getElem?_eq_getElem hk
  have htries := h.tries _ (List.getElem_mem hk)
  have hsum := sum_eraseIdx hjob fun job => e.limit - job.tried
  rcases attempt_cases e call b k with ⟨hnone, -⟩ | ⟨job, ok, store, hk', -, ⟨-, hover⟩ | ⟨-, hagain, heq⟩⟩
  · rw [hjob] at hnone
    cases hnone
  · rw [hover, triesLeft_refill]
    simp only [triesLeft]
    omega
  · rw [heq]
    rw [hjob] at hk'
    cases hk'
    simp only [triesLeft, List.map_append, List.map_cons, List.map_nil, List.sum_append, List.sum_cons,
      List.sum_nil]
    omega

theorem earliest_lt {b : Batch σ α} (h : b.running ≠ []) : b.earliest < b.running.length := by
  have hmem : ∀ (ds : List Nat) (d : Nat), ds.foldl min d ∈ d :: ds := by
    intro ds
    induction ds with
    | nil => intro d; exact List.mem_cons_self
    | cons d' ds ih =>
        intro d
        rw [List.foldl_cons]
        rcases List.mem_cons.mp (ih (min d d')) with heq | hmem
        · rw [heq]
          rcases Nat.le_total d d' with hle | hle
          · rw [Nat.min_eq_left hle]
            exact List.mem_cons_self
          · rw [Nat.min_eq_right hle]
            exact List.mem_cons_of_mem _ List.mem_cons_self
        · exact List.mem_cons_of_mem _ (List.mem_cons_of_mem _ hmem)
  unfold earliest
  cases hdue : b.running.map (·.due) with
  | nil => exact absurd (List.map_eq_nil_iff.mp hdue) h
  | cons d ds =>
      have hlength : b.running.length = (d :: ds).length := by rw [← hdue, List.length_map]
      rw [hlength]
      exact List.idxOf_lt_length_of_mem (hmem ds d)

theorem runFor_spec {items : List α} {b : Batch σ α} (h : Accounts e items b)
    (call : σ → α → Bool × σ) {fuel : Nat} (hfuel : triesLeft e b ≤ fuel) :
    Tries e call b (runFor e call fuel b) ∧ (runFor e call fuel b).running = [] := by
  induction fuel generalizing b with
  | zero =>
      refine ⟨.refl, ?_⟩
      by_contra hne
      have hlt := triesLeft_attempt h call (earliest_lt hne)
      omega
  | succ fuel ih =>
      rw [runFor]
      split
      · next hempty => exact ⟨.refl, List.isEmpty_iff.mp hempty⟩
      · next hbusy =>
        have hne : b.running ≠ [] := fun hnil => hbusy (by rw [hnil]; rfl)
        have hlt := triesLeft_attempt h call (earliest_lt hne)
        obtain ⟨htries, hdone⟩ := ih (h.attempt call b.earliest) (by omega)
        exact ⟨.head ⟨b.earliest, rfl⟩ htries, hdone⟩

/-- Running a batch is trying its calls, one after the other, until all of them are over. -/
theorem run_tries (e : Effort) (call : σ → α → Bool × σ) (store : σ) (items : List α) :
    Tries e call (start e store items) (run e call store items) ∧
      (run e call store items).running = [] := by
  refine runFor_spec (Accounts.start e store items) call ?_
  rw [start, triesLeft_refill]
  simp [triesLeft]

theorem run_spec (e : Effort) (call : σ → α → Bool × σ) (store : σ) (items : List α) :
    Steps e call (start e store items) (run e call store items) ∧
      (run e call store items).running = [] :=
  (run_tries e call store items).imp_left Tries.steps

/-! ## Outcomes -/

variable {b : Batch σ α}

theorem mem_succeeded {a : α} : a ∈ b.succeeded ↔ (a, true) ∈ b.finished := by
  simp [succeeded]

theorem mem_failed {a : α} : a ∈ b.failed ↔ (a, false) ∈ b.finished := by
  simp [failed]

/-- What a try does to the store and to the record of the calls that are over. -/
theorem attempt_outcome (e : Effort) (call : σ → α → Bool × σ) (b : Batch σ α) (k : Nat) :
    b.attempt e call k = b ∨ ∃ job, b.running[k]? = some job ∧
      (b.attempt e call k).store = (call b.store job.item).2 ∧
      ((call b.store job.item).1 = true ∧ (b.attempt e call k).succeeded = b.succeeded ++ [job.item] ∧
          (b.attempt e call k).failed = b.failed ∨
        (call b.store job.item).1 = false ∧ (b.attempt e call k).succeeded = b.succeeded ∧
          ∀ a ∈ (b.attempt e call k).failed, a ∈ b.failed ∨ a = job.item) := by
  rcases attempt_cases e call b k with ⟨-, hsame⟩ | ⟨job, ok, store, hk, hcall, ⟨-, hover⟩ | ⟨rfl, -, heq⟩⟩
  · exact .inl hsame
  · refine .inr ⟨job, hk, ?_⟩
    rw [hover, hcall]
    cases ok <;> simp [refill, succeeded, failed]
  · refine .inr ⟨job, hk, ?_⟩
    rw [heq, hcall]
    exact ⟨rfl, .inr ⟨rfl, rfl, fun a ha => .inl ha⟩⟩

/-- A step makes one of the calls under way, or none. -/
theorem Step.tried {b' : Batch σ α} (h : Step e call b b') :
    (∃ job ∈ b.running, b'.store = (call b.store job.item).2 ∧
      b'.succeeded = if (call b.store job.item).1 = true then b.succeeded ++ [job.item] else b.succeeded) ∨
    b'.store = b.store ∧ b'.succeeded = b.succeeded := by
  cases h with
  | attempt k =>
      rcases attempt_outcome e call b k with hsame | ⟨job, hk, hstore, hok | hfail⟩
      · exact .inr ⟨congrArg _ hsame, congrArg _ hsame⟩
      · exact .inl ⟨job, List.mem_of_getElem? hk, hstore, by rw [if_pos hok.1, hok.2.1]⟩
      · exact .inl ⟨job, List.mem_of_getElem? hk, hstore, by rw [hfail.1, hfail.2.1]; rfl⟩
  | refused k =>
      rcases attempt_outcome e refuse b k with hsame | ⟨job, -, hstore, ⟨hok, -⟩ | ⟨-, hsucceeded, -⟩⟩
      · exact .inr ⟨congrArg _ hsame, congrArg _ hsame⟩
      · cases hok
      · exact .inr ⟨hstore, hsucceeded⟩

theorem Step.outcome {b' : Batch σ α} (h : Step e call b b') :
    (∃ job ∈ b.running, b'.store = (call b.store job.item).2 ∧ ∀ a, a ∈ b'.succeeded ↔
        a ∈ b.succeeded ∨ a = job.item ∧ (call b.store job.item).1 = true) ∨
      b'.store = b.store ∧ ∀ a, a ∈ b'.succeeded ↔ a ∈ b.succeeded := by
  rcases h.tried with ⟨job, hjob, hstore, hsucceeded⟩ | ⟨hstore, hsucceeded⟩
  · refine .inl ⟨job, hjob, hstore, fun a => ?_⟩
    rw [hsucceeded]
    split <;> simp [*]
  · exact .inr ⟨hstore, fun a => by rw [hsucceeded]⟩

@[simp] theorem store_start (e : Effort) (store : σ) (items : List α) :
    (start e store items).store = store := rfl

@[simp] theorem succeeded_start (e : Effort) (store : σ) (items : List α) :
    (start e store items).succeeded = [] := rfl

theorem Accounts.succeeded_subperm {items : List α} (h : Accounts e items b) : b.succeeded.Subperm items := by
  have hfinished : (b.finished.map (·.1)).Subperm items :=
    ((List.sublist_append_left _ _).subperm).trans h.items.subperm
  have hsucceeded : b.succeeded.Subperm (b.finished.map (·.1)) := by
    rw [succeeded, List.map_reverse]
    exact (List.reverse_perm _).subperm.trans (List.filter_sublist.map _).subperm
  exact hsucceeded.trans hfinished

theorem Accounts.succeeded_or_failed {items : List α} (h : Accounts e items b) (hdone : b.running = [])
    {a : α} (ha : a ∈ items) : a ∈ b.succeeded ∨ a ∈ b.failed := by
  rw [mem_succeeded, mem_failed]
  have hfinished : a ∈ b.finished.map (·.1) := (h.finished_perm hdone).mem_iff.mpr ha
  obtain ⟨⟨a, ok⟩, hmem, rfl⟩ := List.mem_map.mp hfinished
  cases ok with
  | true => exact .inl hmem
  | false => exact .inr hmem

theorem Accounts.not_mem_succeeded {β : Type} {f : α → β} {items : List α} (h : Accounts e items b)
    (hnodup : (items.map f).Nodup) {job : Job α} (hjob : job ∈ b.running) : f job.item ∉ b.succeeded.map f := by
  intro hmem
  obtain ⟨a, ha, heq⟩ := List.mem_map.mp hmem
  have hitems := (h.items.map f).nodup_iff.mpr hnodup
  rw [List.map_append, List.nodup_append] at hitems
  have hover : f a ∈ (b.finished.map (·.1)).map f :=
    List.mem_map_of_mem (List.mem_map_of_mem (mem_succeeded.mp ha))
  have hunder : f job.item ∈ (b.running.map (·.item) ++ b.waiting).map f :=
    List.mem_map_of_mem (List.mem_append_left _ (List.mem_map_of_mem hjob))
  exact hitems.2.2 _ hover _ hunder heq

theorem succeeded_perm_of_failed (h : b.failed = []) : b.succeeded.Perm (b.finished.map (·.1)) := by
  have hall : ∀ r ∈ b.finished, r.2 = true := by
    intro r hr
    by_contra hfalse
    have hmem : r.1 ∈ b.failed := mem_failed.mpr (by
      rw [Bool.not_eq_true] at hfalse
      rwa [← hfalse])
    rw [h] at hmem
    cases hmem
  have hfilter : b.finished.filter (·.2) = b.finished := List.filter_eq_self.mpr hall
  rw [succeeded, hfilter]
  exact (List.reverse_perm _).map _

end EdgeFleet.Batch
