import EdgeFleet.Proofs.Snapshot.Batch
import EdgeFleet.Proofs.Snapshot.Chunks
import EdgeFleet.Proofs.Store.Exchange

/-! # What failing calls cost a replacement

A store in memory fails as many calls as it was told to. The calls of a replacement are tried in any
order, so it is open which of them meet the failures. It is not open how many calls are made, how many
failures are left over, and how many items can be lost.
-/

namespace EdgeFleet

namespace Batch

variable {σ α : Type} {e : Effort} {call : σ → α → Bool × σ} {stock calls : σ → Nat}

/-! ## A stock of failures -/

/-- The outcome of a counted call that fails as long as there are failures in stock, and takes one. -/
structure Draws (stock calls : σ → Nat) (s : σ) (outcome : Bool × σ) : Prop where
  succeeds : outcome.1 = true ↔ stock s = 0
  left : stock outcome.2 = stock s - 1
  counted : calls outcome.2 = calls s + 1

/-- The tries made for the calls that are under way. All of them failed. -/
def retried (b : Batch σ α) : Nat := (b.running.map (·.tried)).sum

@[simp] theorem retried_refill (b : Batch σ α) : (b.refill e).retried = b.retried := by
  simp [retried, refill, Function.comp_def]

/-- A try ends a call with success, or with the last of its failures, or is one failure more. -/
theorem Accounts.attempt_counts {items : List α} {b : Batch σ α} (h : Accounts e items b)
    (call : σ → α → Bool × σ) (k : Nat) :
    b.attempt e call k = b ∨ ∃ job ∈ b.running, (b.attempt e call k).store = (call b.store job.item).2 ∧
      ((call b.store job.item).1 = true ∧ job.tried < e.limit ∧
          (b.attempt e call k).succeeded.length = b.succeeded.length + 1 ∧
          (b.attempt e call k).failed.length = b.failed.length ∧
          (b.attempt e call k).retried + job.tried = b.retried ∨
        (call b.store job.item).1 = false ∧
          (b.attempt e call k).succeeded = b.succeeded ∧
          (b.attempt e call k).failed.length = b.failed.length + 1 ∧
          (b.attempt e call k).retried + e.limit = b.retried + 1 ∨
        (call b.store job.item).1 = false ∧
          (b.attempt e call k).succeeded = b.succeeded ∧
          (b.attempt e call k).failed.length = b.failed.length ∧
          (b.attempt e call k).retried = b.retried + 1) := by
  rcases attempt_cases e call b k with ⟨-, hsame⟩ | ⟨job, ok, store, hk, hcall, hend⟩
  · exact .inl hsame
  have hjob := List.mem_of_getElem? hk
  have htries := h.tries job hjob
  have hsum : job.tried + ((b.running.eraseIdx k).map (·.tried)).sum = b.retried :=
    sum_eraseIdx hk (·.tried)
  refine .inr ⟨job, hjob, ?_⟩
  rw [hcall]
  rcases hend with ⟨hlast, hover⟩ | ⟨rfl, -, hagain⟩
  · rw [hover, retried_refill]
    refine ⟨rfl, ?_⟩
    cases ok with
    | true =>
        refine .inl ⟨rfl, htries, by simp [Batch.refill, succeeded], by simp [Batch.refill, failed], ?_⟩
        simp only [retried] at hsum ⊢
        omega
    | false =>
        have hlimit : e.limit ≤ job.tried + 1 := hlast.resolve_left Bool.false_ne_true
        refine .inr (.inl ⟨rfl, by simp [Batch.refill, succeeded], by simp [Batch.refill, failed], ?_⟩)
        simp only [retried] at hsum ⊢
        omega
  · rw [hagain]
    refine ⟨rfl, .inr (.inr ⟨rfl, rfl, rfl, ?_⟩)⟩
    simp only [retried, List.map_append, List.map_cons, List.map_nil, List.sum_append, List.sum_cons,
      List.sum_nil] at hsum ⊢
    omega

/-- The failures taken since the store was `s`. A call that was given up met as many as it has tries,
one that is over met no more than that, and none succeeds before the stock is empty. -/
structure Tally (e : Effort) (stock calls : σ → Nat) (s : σ) (b : Batch σ α) : Prop where
  left : stock b.store ≤ stock s
  counted : calls b.store = calls s + b.succeeded.length + (stock s - stock b.store)
  least : e.limit * b.failed.length + b.retried ≤ stock s - stock b.store
  most : stock s - stock b.store ≤ e.limit * (b.succeeded.length + b.failed.length) + b.retried
  empty : b.succeeded ≠ [] → stock b.store = 0

namespace Tally

variable {s : σ} {items : List α} {b : Batch σ α}

theorem start (e : Effort) (s : σ) (items : List α) :
    Tally e stock calls s (Batch.start e s items) where
  left := Nat.le_refl _
  counted := by simp [Batch.start, refill, succeeded]
  least := by
    rw [Batch.start, retried_refill]
    simp [retried, refill, failed]
  most := by simp [Batch.start, refill]
  empty := fun hne => absurd rfl hne

theorem attempt (h : Tally e stock calls s b) (haccounts : Accounts e items b)
    (hdraws : ∀ job ∈ b.running, Draws stock calls b.store (call b.store job.item)) (k : Nat) :
    Tally e stock calls s (b.attempt e call k) := by
  rcases haccounts.attempt_counts call k with hsame | ⟨job, hjob, hstore, hcounts⟩
  · rwa [hsame]
  have hdraw := hdraws job hjob
  obtain ⟨hleft, hcounted, hleast, hmost, hempty⟩ := h
  have hleft' : stock (b.attempt e call k).store = stock b.store - 1 := by rw [hstore, hdraw.left]
  have hcounted' : calls (b.attempt e call k).store = calls b.store + 1 := by rw [hstore, hdraw.counted]
  have hsome : (call b.store job.item).1 = false → stock b.store ≠ 0 := fun hfail hnone => by
    rw [hdraw.succeeds.mpr hnone] at hfail
    cases hfail
  rcases hcounts with ⟨hok, htries, hsucceeded, hfailed, hretried⟩ | ⟨hfail, hsucceeded, hfailed, hretried⟩ |
      ⟨hfail, hsucceeded, hfailed, hretried⟩
  · have hnone := hdraw.succeeds.mp hok
    refine ⟨by omega, by omega, by rw [hfailed]; omega, ?_, fun _ => by omega⟩
    rw [hsucceeded, hfailed, Nat.add_right_comm, Nat.mul_succ]
    omega
  · have hsome := hsome hfail
    refine ⟨by omega, by rw [hsucceeded]; omega, ?_, ?_, fun hne => ?_⟩
    · rw [hfailed, Nat.mul_succ]
      omega
    · rw [hsucceeded, hfailed, ← Nat.add_assoc, Nat.mul_succ]
      omega
    · rw [hsucceeded] at hne
      exact absurd (hempty hne) hsome
  · have hsome := hsome hfail
    refine ⟨by omega, by rw [hsucceeded]; omega, by rw [hfailed]; omega, ?_, fun hne => ?_⟩
    · rw [hsucceeded, hfailed]
      omega
    · rw [hsucceeded] at hne
      exact absurd (hempty hne) hsome

end Tally

theorem Tries.tally {s : σ} {items : List α} {b : Batch σ α} (h : Tries e call (start e s items) b)
    (hdraws : ∀ b', Tries e call (start e s items) b' → ∀ job ∈ b'.running,
      Draws stock calls b'.store (call b'.store job.item)) : Tally e stock calls s b := by
  induction h with
  | refl => exact .start e s items
  | tail htries hstep ih =>
      obtain ⟨k, rfl⟩ := hstep
      exact ih.attempt (Tries.accounts htries) (hdraws _ htries) k

/-! ## The bill of a batch -/

/-- The outcomes of a batch, one for each order in which its calls may be over. -/
structure Outcome (e : Effort) (call : σ → α → Bool × σ) (s : σ) (items : List α) (b : Batch σ α) :
    Prop where
  tries : Tries e call (start e s items) b
  done : b.running = []

theorem Outcome.of_run (e : Effort) (call : σ → α → Bool × σ) (s : σ) (items : List α) :
    Outcome e call s items (run e call s items) :=
  ⟨(run_tries e call s items).1, (run_tries e call s items).2⟩

theorem Accounts.outcomes_perm {items : List α} {b : Batch σ α} (h : Accounts e items b)
    (hdone : b.running = []) : (b.succeeded ++ b.failed).Perm items := by
  have hsplit := (List.filter_append_perm (·.2) b.finished).map (·.1)
  rw [List.map_append] at hsplit
  refine List.Perm.trans ?_ (hsplit.trans (h.finished_perm hdone))
  simp only [succeeded, failed, List.map_reverse, decide_not, Bool.decide_eq_true]
  exact (List.reverse_perm _).append (List.reverse_perm _)

/-- What a batch of `total` calls costs when each of them has the given number of tries. -/
structure Bill (limit : Nat) (stock calls : σ → Nat) (s s' : σ) (total done lost : Nat) : Prop where
  all : done + lost = total
  counted : calls s' = calls s + done + min (stock s) (limit * total)
  left : stock s' = stock s - limit * total
  lost_le : lost ≤ stock s / limit
  lost_eq_zero : stock s < limit → lost = 0

theorem Bill.of_eq {limit total done lost : Nat} {s s' s₁ s₁' : σ}
    (h : Bill limit stock calls s s' total done lost) (hstock : stock s = stock s₁)
    (hcalls : calls s = calls s₁) (hstock' : stock s₁' = stock s') (hcalls' : calls s₁' = calls s') :
    Bill limit stock calls s₁ s₁' total done lost := by
  obtain ⟨hall, hcounted, hleft, hlost, hzero⟩ := h
  rw [hstock] at hcounted hleft hlost hzero
  exact ⟨hall, by rw [hcalls', hcounted, hcalls], hstock'.trans hleft, hlost, hzero⟩

theorem Tally.bill {s : σ} {items : List α} {b : Batch σ α} (h : Tally e stock calls s b)
    (haccounts : Accounts e items b) (hdone : b.running = []) :
    Bill e.limit stock calls s b.store items.length b.succeeded.length b.failed.length := by
  have hall : b.succeeded.length + b.failed.length = items.length := by
    rw [← List.length_append, (haccounts.outcomes_perm hdone).length_eq]
  have hretried : b.retried = 0 := by simp [retried, hdone]
  obtain ⟨hleft, hcounted, hleast, hmost, hempty⟩ := h
  rw [hretried, Nat.add_zero] at hleast hmost
  rw [hall] at hmost
  -- Either the stock was used up, or no call succeeded and each one took all the failures it could.
  have hspent : stock s - stock b.store = min (stock s) (e.limit * items.length) := by
    by_cases hnone : b.succeeded = []
    · rw [hnone, List.length_nil, Nat.zero_add] at hall
      rw [hall] at hleast
      omega
    · have := hempty hnone
      omega
  have hlost : b.failed.length ≤ stock s / e.limit := by
    have hpos : 0 < e.limit := Nat.le_max_left 1 e.tries
    rw [Nat.le_div_iff_mul_le hpos, Nat.mul_comm]
    omega
  refine ⟨hall, by omega, by omega, hlost, fun hfew => ?_⟩
  rw [Nat.div_eq_of_lt hfew] at hlost
  omega

theorem Outcome.bill {s : σ} {items : List α} {b : Batch σ α} (h : Outcome e call s items b)
    (hdraws : ∀ b', Tries e call (start e s items) b' → ∀ job ∈ b'.running,
      Draws stock calls b'.store (call b'.store job.item)) :
    Bill e.limit stock calls s b.store items.length b.succeeded.length b.failed.length :=
  (Tries.tally h.tries hdraws).bill (Tries.accounts h.tries) h.done

end Batch

/-! ## Calls to a store in memory -/

namespace MemoryStore

variable {s : MemoryStore} {ns name : String} {c : Chunk}

theorem createCall_of_failing (hup : s.isDown = false) (hfails : s.failCreates ≠ 0) :
    createCall s c =
      (false, { s with createCalls := s.createCalls + 1, failCreates := s.failCreates - 1 }) := by
  have hpos : 0 < s.failCreates := Nat.pos_of_ne_zero hfails
  simp [createCall, ChunkStore.create, create, hup, hpos]

theorem createCall_of_free (hup : s.isDown = false) (hnone : s.failCreates = 0)
    (hfree : (s.inNamespace c.ns).get? c.name = none) :
    createCall s c = (true, ({ s with createCalls := s.createCalls + 1 } : MemoryStore).put c) := by
  have hfree : ¬(s.inNamespace c.ns).contains c.name = true :=
    fun htaken => (contains_inNamespace s c.ns c.name).mp htaken hfree
  have hcreate : s.create c = (.ok (), ({ s with createCalls := s.createCalls + 1 } : MemoryStore).put c) := by
    simp only [create]
    rw [if_neg (by simp [hup]), if_neg (by simp [hnone])]
    exact if_neg hfree
  simp only [createCall, ChunkStore.create, hcreate]

theorem get?_put_of_free (hfree : (s.inNamespace c.ns).get? c.name = none) {c' : Chunk} :
    ((s.put c).inNamespace ns).get? name = some c' ↔
      (s.inNamespace ns).get? name = some c' ∨ c' = c ∧ c'.ns = ns ∧ c'.name = name := by
  rw [get?_inNamespace_put]
  by_cases hhere : ns = c.ns ∧ name = c.name
  · obtain ⟨rfl, rfl⟩ := hhere
    rw [if_pos ⟨rfl, rfl⟩, hfree]
    constructor
    · intro hc
      cases hc
      exact .inr ⟨rfl, rfl, rfl⟩
    · rintro (hold | ⟨rfl, -⟩)
      · cases hold
      · rfl
  · rw [if_neg hhere]
    refine (or_iff_left ?_).symm
    rintro ⟨rfl, hns, hname⟩
    exact hhere ⟨hns.symm, hname.symm⟩

theorem deleteCall_of_failing (hup : s.isDown = false) (hfails : s.failDeletes ≠ 0) :
    deleteCall ns s name =
      (false, { s with deleteCalls := s.deleteCalls + 1, failDeletes := s.failDeletes - 1 }) := by
  have hpos : 0 < s.failDeletes := Nat.pos_of_ne_zero hfails
  simp [deleteCall, ChunkStore.delete, delete, hup, hpos]

/-- Whether there is a chunk of the name or not, there is none afterwards. -/
theorem deleteCall_of_not_failing (hup : s.isDown = false) (hnone : s.failDeletes = 0) (ns name : String) :
    ∃ chunks, deleteCall ns s name = (true, { s with deleteCalls := s.deleteCalls + 1, chunks }) ∧
      ∀ ns' name', (({ s with chunks } : MemoryStore).inNamespace ns').get? name' =
        if ns' = ns ∧ name' = name then none else (s.inNamespace ns').get? name' := by
  by_cases htaken : (s.inNamespace ns).contains name = true
  · refine ⟨s.chunks.insert ns ((s.inNamespace ns).erase name), ?_, get?_inNamespace_erase s ns name⟩
    have hdelete : s.delete ns name = (.ok (), { s with
        deleteCalls := s.deleteCalls + 1
        chunks := s.chunks.insert ns ((s.inNamespace ns).erase name) }) := by
      simp only [delete]
      rw [if_neg (by simp [hup]), if_neg (by simp [hnone])]
      exact if_pos htaken
    simp only [deleteCall, ChunkStore.delete, hdelete]
  · refine ⟨s.chunks, ?_, fun ns' name' => ?_⟩
    · have hdelete : s.delete ns name =
          (.error (.notFound name), { s with deleteCalls := s.deleteCalls + 1 }) := by
        simp only [delete]
        rw [if_neg (by simp [hup]), if_neg (by simp [hnone])]
        exact if_neg htaken
      simp only [deleteCall, ChunkStore.delete, hdelete]
    · split
      · next hplace =>
        rw [contains_inNamespace, not_not] at htaken
        rw [hplace.1, hplace.2, htaken]
      · rfl

end MemoryStore

/-! ## The two batches -/

namespace Batch

variable {e : Effort} {s : MemoryStore} {ns : String}

/-- What deletions make of the store, whatever fails. -/
structure Removes (ns : String) (s : MemoryStore) (b : Batch MemoryStore String) : Prop where
  up : b.store.isDown = false
  failCreates : b.store.failCreates = s.failCreates
  createCalls : b.store.createCalls = s.createCalls
  get? : ∀ ns' name, (b.store.inNamespace ns').get? name =
    if ns' = ns ∧ name ∈ b.succeeded then none else (s.inNamespace ns').get? name

theorem draws_deleteCall (hup : s.isDown = false) (name : String) :
    Draws (·.failDeletes) (·.deleteCalls) s (deleteCall ns s name) := by
  by_cases hnone : s.failDeletes = 0
  · obtain ⟨chunks, hcall, -⟩ := MemoryStore.deleteCall_of_not_failing hup hnone ns name
    rw [hcall]
    exact ⟨by simp [hnone], by simp [hnone], rfl⟩
  · rw [MemoryStore.deleteCall_of_failing hup hnone]
    exact ⟨by simp [hnone], rfl, rfl⟩

theorem draws_createCall (hup : s.isDown = false) {c : Chunk}
    (hfree : (s.inNamespace c.ns).get? c.name = none) :
    Draws (·.failCreates) (·.createCalls) s (createCall s c) := by
  by_cases hnone : s.failCreates = 0
  · rw [MemoryStore.createCall_of_free hup hnone hfree]
    exact ⟨by simp [hnone], by simp [hnone, MemoryStore.put], rfl⟩
  · rw [MemoryStore.createCall_of_failing hup hnone]
    exact ⟨by simp [hnone], rfl, rfl⟩

theorem Tries.removes (hup : s.isDown = false) {old : List String} {b : Batch MemoryStore String}
    (h : Tries e (deleteCall ns) (start e s old) b) : Removes ns s b := by
  induction h with
  | refl => exact ⟨hup, rfl, rfl, fun ns' name => by simp⟩
  | @tail b _ _ hstep ih =>
      obtain ⟨k, rfl⟩ := hstep
      have hstep : Step e (deleteCall ns) b (b.attempt e (deleteCall ns) k) := .attempt b k
      rcases hstep.tried with
        ⟨job, -, hstore, hsucceeded⟩ | ⟨hstore, hsucceeded⟩
      · by_cases hnone : b.store.failDeletes = 0
        · obtain ⟨chunks, hcall, hget⟩ :=
            MemoryStore.deleteCall_of_not_failing ih.up hnone ns job.item
          rw [hcall] at hstore hsucceeded
          refine ⟨hstore ▸ ih.up, hstore ▸ ih.failCreates, hstore ▸ ih.createCalls, fun ns' name => ?_⟩
          rw [hstore, hsucceeded]
          refine (hget ns' name).trans ?_
          rw [ih.get?]
          by_cases hns : ns' = ns <;> by_cases hname : name = job.item <;> simp [hns, hname]
        · rw [MemoryStore.deleteCall_of_failing ih.up hnone] at hstore hsucceeded
          refine ⟨hstore ▸ ih.up, hstore ▸ ih.failCreates, hstore ▸ ih.createCalls, fun ns' name => ?_⟩
          rw [hstore, hsucceeded]
          exact ih.get? ns' name
      · exact ⟨hstore ▸ ih.up, hstore ▸ ih.failCreates, hstore ▸ ih.createCalls,
          fun ns' name => by rw [hstore, hsucceeded, ih.get?]⟩

/-- What creations make of the store, whatever fails. -/
structure Adds (s : MemoryStore) (b : Batch MemoryStore Chunk) : Prop where
  up : b.store.isDown = false
  failDeletes : b.store.failDeletes = s.failDeletes
  deleteCalls : b.store.deleteCalls = s.deleteCalls
  get? : ∀ ns name c, (b.store.inNamespace ns).get? name = some c ↔
    (s.inNamespace ns).get? name = some c ∨ c ∈ b.succeeded ∧ c.ns = ns ∧ c.name = name

section

variable {new : List Chunk} {b : Batch MemoryStore Chunk}
  (hnodup : (new.map (·.name)).Nodup)
  (hfree : ∀ c ∈ new, (s.inNamespace c.ns).get? c.name = none)

include hnodup hfree

/-- The place of a chunk is free as long as its call is under way. -/
theorem Adds.free (h : Adds s b) (haccounts : Accounts e new b) {job : Job Chunk}
    (hjob : job ∈ b.running) : (b.store.inNamespace job.item.ns).get? job.item.name = none := by
  rw [Option.eq_none_iff_forall_ne_some]
  intro c hc
  rcases (h.get? _ _ c).mp hc with hold | ⟨hnew, -, hname⟩
  · rw [hfree _ (haccounts.mem_of_running hjob)] at hold
    cases hold
  · refine haccounts.not_mem_succeeded hnodup hjob ?_
    rw [← hname]
    exact List.mem_map_of_mem hnew

theorem Tries.adds (hup : s.isDown = false) (h : Tries e createCall (start e s new) b) : Adds s b := by
  induction h with
  | refl => exact ⟨hup, rfl, rfl, fun ns name c => by simp⟩
  | @tail b _ htries hstep ih =>
      obtain ⟨k, rfl⟩ := hstep
      have hstep : Step e createCall b (b.attempt e createCall k) := .attempt b k
      rcases hstep.tried with
        ⟨job, hjob, hstore, hsucceeded⟩ | ⟨hstore, hsucceeded⟩
      · by_cases hnone : b.store.failCreates = 0
        · have hplace := ih.free hnodup hfree (Tries.accounts htries) hjob
          rw [MemoryStore.createCall_of_free ih.up hnone hplace] at hstore hsucceeded
          refine ⟨hstore ▸ ih.up, hstore ▸ ih.failDeletes, hstore ▸ ih.deleteCalls, fun ns name c => ?_⟩
          rw [hstore, hsucceeded, if_pos rfl]
          refine (MemoryStore.get?_put_of_free hplace).trans ?_
          rw [or_congr_left (ih.get? ns name c), or_assoc, List.mem_append, List.mem_singleton]
          refine or_congr_right ?_
          constructor
          · rintro (⟨hc, hat⟩ | ⟨rfl, hat⟩)
            · exact ⟨.inl hc, hat⟩
            · exact ⟨.inr rfl, hat⟩
          · rintro ⟨hc | rfl, hat⟩
            · exact .inl ⟨hc, hat⟩
            · exact .inr ⟨rfl, hat⟩
        · rw [MemoryStore.createCall_of_failing ih.up hnone] at hstore hsucceeded
          refine ⟨hstore ▸ ih.up, hstore ▸ ih.failDeletes, hstore ▸ ih.deleteCalls, fun ns name c => ?_⟩
          rw [hstore, hsucceeded]
          exact ih.get? ns name c
      · exact ⟨hstore ▸ ih.up, hstore ▸ ih.failDeletes, hstore ▸ ih.deleteCalls,
          fun ns name c => by rw [hstore, hsucceeded, ih.get?]⟩

end

end Batch

/-! ## A replacement -/

/-- Replacing the chunks by their due times is one of the orders. -/
theorem replaceChunks_outcomes {σ : Type} [ChunkStore σ] (e : Effort) (ns : String) (store : σ)
    (old : List String) (new : List Chunk) :
    ∃ deletes creates, Batch.Outcome e (deleteCall ns) store old deletes ∧
      Batch.Outcome e createCall deletes.store new creates ∧
      replaceChunks e ns store old new = .of deletes creates :=
  ⟨_, _, .of_run .., .of_run .., rfl⟩

/-- Of a generation, the chunks that were written are there, each with its own piece of the data. -/
theorem Batch.Adds.get?_piece {s : MemoryStore} {b : Batch MemoryStore Chunk} (h : Adds s b)
    {ns : String} {g size : Nat} {data : Bytes}
    (hwritten : ∀ c ∈ b.succeeded, c ∈ chunksOf ns g size data)
    (hfree : ∀ c ∈ chunksOf ns g size data, (s.inNamespace ns).get? c.name = none)
    {i : Nat} {piece : Bytes} (hpiece : (splitChunks size data)[i]? = some piece) :
    (b.store.inNamespace ns).get? (Chunk.nameOf g i) =
      if Chunk.nameOf g i ∈ b.succeeded.map (·.name) then
        some (.make ns g i (splitChunks size data).length piece)
      else none := by
  have hplace := hfree _ (mem_chunksOf.mpr ⟨i, piece, hpiece, rfl⟩)
  split
  · next hname =>
    obtain ⟨c, hc, hname⟩ := List.mem_map.mp hname
    obtain ⟨j, piece', hpiece', rfl⟩ := mem_chunksOf.mp (hwritten c hc)
    obtain rfl := (Chunk.nameOf_injective hname).2
    obtain rfl := Option.some.inj (hpiece.symm.trans hpiece')
    exact (h.get? _ _ _).mpr (.inr ⟨hc, rfl, rfl⟩)
  · next hname =>
    rw [Option.eq_none_iff_forall_ne_some]
    intro c hc
    rcases (h.get? _ _ c).mp hc with hold | ⟨hnew, -, hat⟩
    · exact Option.some_ne_none c (hold.symm.trans hplace)
    · exact hname (hat ▸ List.mem_map_of_mem hnew)

/-- What it takes to replace the chunks with the given names by a generation, and what is there
afterwards. -/
structure Accounted (e : Effort) (ns : String) (s : MemoryStore) (old : List String) (g size : Nat)
    (data : Bytes) (deletes : Batch MemoryStore String) (creates : Batch MemoryStore Chunk)
    (r : Replaced MemoryStore) : Prop where
  creations : Batch.Bill e.limit (·.failCreates) (·.createCalls) s r.store
    ((data.length + (max 1 size - 1)) / max 1 size) r.written r.lost
  created : (creates.succeeded ++ creates.failed).Perm (chunksOf ns g size data)
  pieces : ∀ i piece, (splitChunks size data)[i]? = some piece →
    (r.store.inNamespace ns).get? (Chunk.nameOf g i) =
      if Chunk.nameOf g i ∈ creates.succeeded.map (·.name) then
        some (.make ns g i (splitChunks size data).length piece)
      else none
  deletions : Batch.Bill e.limit (·.failDeletes) (·.deleteCalls) s r.store old.length
    deletes.succeeded.length r.undeleted
  deleted : (deletes.succeeded ++ deletes.failed).Perm old
  /-- What was neither deleted nor written is as it was. -/
  holds : ∀ ns' name c, (r.store.inNamespace ns').get? name = some c ↔
    ¬(ns' = ns ∧ name ∈ deletes.succeeded) ∧ (s.inNamespace ns').get? name = some c ∨
      c ∈ creates.succeeded ∧ ns' = ns ∧ c.name = name

/-- Whatever the order of the calls, the failures that a store was told to make cost the same number of
calls, and no more chunks are given up than there are failures for all of their tries. Replacing the chunks by
their due times is one of the orders. -/
theorem replacement_accounted {e : Effort} {ns : String} {s : MemoryStore} {old : List String}
    {g size : Nat} {data : Bytes} {deletes : Batch MemoryStore String}
    {creates : Batch MemoryStore Chunk} (hup : s.isDown = false)
    (hdeletes : Batch.Outcome e (deleteCall ns) s old deletes)
    (hcreates : Batch.Outcome e createCall deletes.store (chunksOf ns g size data) creates)
    (hfree : ∀ c ∈ chunksOf ns g size data, (deletes.store.inNamespace ns).get? c.name = none) :
    Accounted e ns s old g size data deletes creates (.of deletes creates) ∧
      ∃ deletes' creates', Batch.Outcome e (deleteCall ns) s old deletes' ∧
        Batch.Outcome e createCall deletes'.store (chunksOf ns g size data) creates' ∧
        replaceChunks e ns s old (chunksOf ns g size data) = .of deletes' creates' := by
  have hns : ∀ c ∈ chunksOf ns g size data, c.ns = ns := by
    intro c hc
    obtain ⟨i, piece, -, rfl⟩ := mem_chunksOf.mp hc
    rfl
  have hfree' : ∀ c ∈ chunksOf ns g size data, (deletes.store.inNamespace c.ns).get? c.name = none := by
    intro c hc
    rw [hns c hc]
    exact hfree c hc
  have hdeletion := hdeletes.tries.removes hup
  have hadds : ∀ {b}, Batch.Tries e createCall (.start e deletes.store (chunksOf ns g size data)) b →
      Batch.Adds deletes.store b :=
    fun htries => htries.adds nodup_names_chunksOf hfree' hdeletion.up
  have hcreation := hadds hcreates.tries
  have hdeletions := hdeletes.bill fun b htries job _ =>
    Batch.draws_deleteCall (htries.removes hup).up job.item
  have hcreations := hcreates.bill fun b htries job hjob =>
    Batch.draws_createCall (hadds htries).up
      ((hadds htries).free nodup_names_chunksOf hfree' htries.accounts hjob)
  have hcreated := hcreates.tries.accounts.outcomes_perm hcreates.done
  have hwritten : ∀ c ∈ creates.succeeded, c ∈ chunksOf ns g size data :=
    fun c hc => hcreated.subset (List.mem_append_left _ hc)
  refine ⟨⟨?_, hcreated, fun i piece => hcreation.get?_piece hwritten hfree, ?_,
    hdeletes.tries.accounts.outcomes_perm hdeletes.done, fun ns' name c => ?_⟩,
    replaceChunks_outcomes e ns s old (chunksOf ns g size data)⟩
  · have hpieces : (chunksOf ns g size data).length = (splitChunks size data).length := length_chunksOf
    rw [← length_splitChunks, ← hpieces]
    exact hcreations.of_eq hdeletion.failCreates hdeletion.createCalls rfl rfl
  · exact hdeletions.of_eq rfl rfl hcreation.failDeletes hcreation.deleteCalls
  · have hold : (deletes.store.inNamespace ns').get? name = some c ↔
        ¬(ns' = ns ∧ name ∈ deletes.succeeded) ∧ (s.inNamespace ns').get? name = some c := by
      rw [hdeletion.get?]
      split <;> simp [*]
    rw [← hold]
    refine (hcreation.get? ns' name c).trans (or_congr_right (and_congr_right fun hc => ?_))
    rw [hns c (hwritten c hc), eq_comm]

/-- Three failures take all the tries of one chunk of three. One failure of a deletion does no harm, nor
does a deletion of what is not there. -/
theorem replacement_accounted_one_lost :
    let e : Effort := ⟨2, 2, 10⟩
    let s : MemoryStore :=
      { MemoryStore.empty.put (.make "fleet" 0 0 1 [7]) with failCreates := 3, failDeletes := 1 }
    let r := replaceChunks e "fleet" s ["0-0", "0-1"] (chunksOf "fleet" 1 2 [1, 2, 3, 4, 5])
    r.written = 2 ∧ r.lost = 1 ∧ r.store.createCalls = 2 + 3 ∧ r.undeleted = 0 ∧
      r.store.deleteCalls = 2 + 1 ∧ (r.store.inNamespace "fleet").get? "1-0" = none ∧
      (r.store.inNamespace "fleet").get? "1-2" = some (.make "fleet" 1 2 3 [5]) := by
  intro e s r
  let deletes := Batch.run e (deleteCall "fleet") s ["0-0", "0-1"]
  let creates := Batch.run e createCall deletes.store (chunksOf "fleet" 1 2 [1, 2, 3, 4, 5])
  have haccounted : Accounted e "fleet" s ["0-0", "0-1"] 1 2 [1, 2, 3, 4, 5] deletes creates r :=
    (replacement_accounted rfl (.of_run ..) (.of_run ..) (by decide +kernel)).1
  have hwritten : r.written = 2 := by decide +kernel
  have hundeleted : r.undeleted = 0 := haccounted.deletions.lost_eq_zero (by decide)
  have hlost : r.lost = 1 := by
    have hall : r.written + r.lost = 3 := haccounted.creations.all
    omega
  have hcreateCalls : r.store.createCalls = 0 + r.written + min 3 (2 * 3) := haccounted.creations.counted
  have hdeleteCalls : r.store.deleteCalls = 0 + deletes.succeeded.length + min 1 (2 * 2) :=
    haccounted.deletions.counted
  have hdeletes : deletes.succeeded.length + r.undeleted = 2 := haccounted.deletions.all
  refine ⟨hwritten, hlost, by omega, hundeleted, by omega, ?_, ?_⟩
  · have hnone := haccounted.pieces 0 [1, 2] (by decide +kernel)
    rw [if_neg (by decide +kernel)] at hnone
    exact hnone
  · have hpiece := haccounted.pieces 2 [5] (by decide +kernel)
    rw [if_pos (by decide +kernel), length_splitChunks] at hpiece
    exact hpiece

end EdgeFleet
