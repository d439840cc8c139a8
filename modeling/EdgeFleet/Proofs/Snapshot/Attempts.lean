import EdgeFleet.Proofs.Snapshot.Batch

/-! # The tries of a batch

A batch knows how often the calls under way were tried, and of the others only how they ended. When the
tries are written down as they are made, it can be seen that no call is given up early: each one is tried
until it succeeds or has failed as often as it may.
-/

namespace EdgeFleet.Batch

variable {σ α : Type} {e : Effort} {call : σ → α → Bool × σ}

/-- A batch with the tries made so far and the success of each, the latest first. -/
structure Logged (σ α : Type) where
  batch : Batch σ α
  tries : List (α × Bool)

/-- What became of a call: it failed so often, and then succeeded or was given up. -/
structure Fate (α : Type) where
  item : α
  failures : Nat
  succeeded : Bool

namespace Fate

def tries (f : Fate α) : List (α × Bool) :=
  (if f.succeeded then [(f.item, true)] else []) ++ List.replicate f.failures (f.item, false)

/-- It has succeeded, or has failed as often as it may. -/
def IsOver (limit : Nat) (f : Fate α) : Prop :=
  if f.succeeded then f.failures < limit else f.failures = limit

end Fate

/-- The tries of a call under way. -/
def failuresOf (job : Job α) : List (α × Bool) := List.replicate job.tried (job.item, false)

namespace Logged

def start (e : Effort) (store : σ) (items : List α) : Logged σ α := ⟨.start e store items, []⟩

/-- One more try of a call under way, which may be refused on its way to the store. -/
inductive Step (e : Effort) (call : σ → α → Bool × σ) (l : Logged σ α) : Logged σ α → Prop
  | attempt {made : σ → α → Bool × σ} (hmade : made = call ∨ made = refuse) {k : Nat} {job : Job α}
      (hk : l.batch.running[k]? = some job) :
      Step e call l
        ⟨l.batch.attempt e made k, (job.item, (made l.batch.store job.item).1) :: l.tries⟩

abbrev Steps (e : Effort) (call : σ → α → Bool × σ) : Logged σ α → Logged σ α → Prop :=
  Relation.ReflTransGen (Step e call)

/-- Every item has been tried until its call succeeded or had failed as often as it may. -/
def WorksOff (e : Effort) (items : List α) (l : Logged σ α) : Prop :=
  ∃ fates : List (Fate α), (fates.map (·.item)).Perm items ∧ (∀ f ∈ fates, f.IsOver e.limit) ∧
    l.tries.Perm (fates.flatMap Fate.tries) ∧
    l.batch.finished = fates.map fun f => (f.item, f.succeeded)

/-! ## The log and the batch -/

variable {l l' : Logged σ α} {items : List α} {store : σ}

theorem Step.step (h : Step e call l l') : Batch.Step e call l.batch l'.batch := by
  cases h with
  | attempt hmade hk =>
      rcases hmade with rfl | rfl
      · exact .attempt l.batch _
      · exact .refused l.batch _

theorem Steps.steps (h : Steps e call l l') : Batch.Steps e call l.batch l'.batch := by
  induction h with
  | refl => exact .refl
  | tail _ hstep ih => exact ih.tail hstep.step

/-- Where nothing is under way at the position, nothing is tried and nothing written down. -/
theorem exists_steps_attempt {made : σ → α → Bool × σ} (hmade : made = call ∨ made = refuse)
    (l : Logged σ α) (k : Nat) : ∃ tries, Steps e call l ⟨l.batch.attempt e made k, tries⟩ := by
  cases hk : l.batch.running[k]? with
  | none =>
      refine ⟨l.tries, ?_⟩
      rw [Batch.attempt, hk]
  | some job => exact ⟨_, .single (.attempt hmade hk)⟩

theorem exists_steps {b b' : Batch σ α} (h : Batch.Steps e call b b') (tries : List (α × Bool)) :
    ∃ tries', Steps e call ⟨b, tries⟩ ⟨b', tries'⟩ := by
  induction h with
  | refl => exact ⟨tries, .refl⟩
  | @tail b b' _ hstep ih =>
      obtain ⟨tries', hsteps⟩ := ih
      obtain ⟨tries'', hattempt⟩ : ∃ tries'', Steps e call ⟨b, tries'⟩ ⟨b', tries''⟩ := by
        cases hstep with
        | attempt k => exact exists_steps_attempt (.inl rfl) ⟨b, tries'⟩ k
        | refused k => exact exists_steps_attempt (.inr rfl) ⟨b, tries'⟩ k
      exact ⟨tries'', hsteps.trans hattempt⟩

/-- Whatever has been tried so far, the calls can be brought to their ends. -/
theorem exists_steps_done (h : Steps e call (start e store items) l) :
    ∃ l', Steps e call l l' ∧ l'.batch.running = [] := by
  obtain ⟨htries, hdone⟩ := runFor_spec (Batch.Steps.accounts h.steps) call (Nat.le_refl _)
  obtain ⟨tries, hsteps⟩ := exists_steps htries.steps l.tries
  exact ⟨_, hsteps, hdone⟩

/-! ## Every try belongs to a call -/

/-- The tries are those of the calls that are over and of those under way. -/
structure Explained (e : Effort) (fates : List (Fate α)) (l : Logged σ α) : Prop where
  isOver : ∀ f ∈ fates, f.IsOver e.limit
  finished : l.batch.finished = fates.map fun f => (f.item, f.succeeded)
  tries : l.tries.Perm (fates.flatMap Fate.tries ++ l.batch.running.flatMap failuresOf)

variable {fates : List (Fate α)}

theorem flatMap_failuresOf_refill (b : Batch σ α) :
    (b.refill e).running.flatMap failuresOf = b.running.flatMap failuresOf := by
  simp [refill, failuresOf, -List.map_take]

/-- A call that ends with this try. -/
theorem tries_ended (job : Job α) (ok : Bool) :
    Fate.tries ⟨job.item, if ok then job.tried else job.tried + 1, ok⟩ =
      (job.item, ok) :: failuresOf job := by
  cases ok <;> simp [Fate.tries, failuresOf, List.replicate_succ]

theorem Explained.start (e : Effort) (store : σ) (items : List α) :
    (start e store items).Explained e [] where
  isOver := nofun
  finished := rfl
  tries := by
    rw [Logged.start, Batch.start, flatMap_failuresOf_refill]
    exact .refl _

theorem Explained.step (h : l.Explained e fates) (haccounts : Accounts e items l.batch)
    (hstep : Step e call l l') : ∃ fates', l'.Explained e fates' := by
  cases hstep with
  | @attempt made _ k job hk =>
      have hlimit := haccounts.tries job (List.mem_of_getElem? hk)
      have hrunning : (failuresOf job ++ (l.batch.running.eraseIdx k).flatMap failuresOf).Perm
          (l.batch.running.flatMap failuresOf) := by
        obtain ⟨hlt, rfl⟩ := List.getElem?_eq_some_iff.mp hk
        exact (List.getElem_cons_eraseIdx_perm hlt).flatMap_right failuresOf
      have htries := h.tries.trans (hrunning.symm.append_left (fates.flatMap Fate.tries))
      rcases attempt_cases e made l.batch k with ⟨hnone, -⟩ | ⟨job', ok, store, hk', hcall, hend⟩
      · rw [hk] at hnone
        cases hnone
      obtain rfl : job = job' := Option.some.inj (hk.symm.trans hk')
      rw [hcall]
      rcases hend with ⟨hlast, hover⟩ | ⟨rfl, -, hagain⟩
      -- The call is over; its fate is made up of the failures so far and this try.
      · refine ⟨⟨job.item, if ok then job.tried else job.tried + 1, ok⟩ :: fates, ?_, ?_, ?_⟩
        · intro f hf
          rcases List.mem_cons.mp hf with rfl | hf
          · cases ok with
            | true => exact hlimit
            | false => exact Nat.le_antisymm hlimit (hlast.resolve_left Bool.false_ne_true)
          · exact h.isOver f hf
        · rw [hover, List.map_cons, ← h.finished]
          rfl
        · rw [hover, flatMap_failuresOf_refill, List.flatMap_cons, tries_ended]
          simp only [List.cons_append, List.append_assoc]
          exact (htries.trans (List.perm_append_comm_assoc ..)).cons _
      -- The call stays under way with one failure more.
      · refine ⟨fates, h.isOver, by rw [hagain]; exact h.finished, ?_⟩
        rw [hagain]
        have hmore : failuresOf ⟨job.item, job.tried + 1, max l.batch.elapsed job.due + e.pause⟩ =
            (job.item, false) :: failuresOf job := List.replicate_succ
        simp only [List.flatMap_append, List.flatMap_singleton, hmore]
        refine (htries.cons _).trans (List.perm_middle.symm.trans (List.Perm.append_left _ ?_))
        rw [← List.cons_append]
        exact List.perm_append_comm

theorem Steps.explained (h : Steps e call (Logged.start e store items) l) : ∃ fates, l.Explained e fates := by
  induction h with
  | refl => exact ⟨[], .start e store items⟩
  | tail hsteps hstep ih =>
      obtain ⟨fates, hexplained⟩ := ih
      exact hexplained.step (Batch.Steps.accounts (Steps.steps hsteps)) hstep

/-- When nothing is under way any more, all items have been worked off. -/
theorem Steps.worksOff (h : Steps e call (Logged.start e store items) l) (hdone : l.batch.running = []) :
    l.WorksOff e items := by
  obtain ⟨fates, hover, hfinished, htries⟩ := h.explained
  refine ⟨fates, ?_, hover, ?_, hfinished⟩
  · have hitems := (Batch.Steps.accounts h.steps).finished_perm hdone
    rw [hfinished, List.map_map] at hitems
    exact hitems
  · rw [hdone, List.flatMap_nil, List.append_nil] at htries
    exact htries

end Logged

end EdgeFleet.Batch
