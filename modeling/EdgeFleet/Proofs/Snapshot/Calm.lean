import EdgeFleet.Proofs.Snapshot.Calls
import EdgeFleet.Proofs.Store.Places

/-! # Batches and the places of chunks

Deletions clear the places of their names and touch no other; creations fill the places that are free. In a
batch that meets no failure of the store, every deletion succeeds, and a creation fails only where something
is in its place.
-/

namespace EdgeFleet.Batch

variable {σ α : Type} {e : Effort}

/-! ## Tries that meet no failure -/

section

variable {call : σ → α → Bool × σ} {fault : σ → α → Bool} {b b' : Batch σ α}

/-- One more try of one of the calls under way, in which the store does not fail. -/
inductive CalmStep (e : Effort) (call : σ → α → Bool × σ) (fault : σ → α → Bool) :
    Batch σ α → Batch σ α → Prop
  | attempt (b : Batch σ α) (k : Nat) (h : ∀ job ∈ b.running[k]?, fault b.store job.item = false) :
      CalmStep e call fault b (b.attempt e call k)

abbrev CalmSteps (e : Effort) (call : σ → α → Bool × σ) (fault : σ → α → Bool) :
    Batch σ α → Batch σ α → Prop :=
  Relation.ReflTransGen (CalmStep e call fault)

theorem CalmStep.step (h : CalmStep e call fault b b') : Step e call b b' := by
  cases h with
  | attempt k => exact .attempt b k

theorem CalmSteps.steps (h : CalmSteps e call fault b b') : Steps e call b b' :=
  Relation.ReflTransGen.mono (fun _ _ => CalmStep.step) _ _ h

theorem CalmStep.outcome (h : CalmStep e call fault b b') :
    b' = b ∨ ∃ job ∈ b.running, fault b.store job.item = false ∧ b'.store = (call b.store job.item).2 ∧
      ((call b.store job.item).1 = true ∧ b'.failed = b.failed ∨
        (call b.store job.item).1 = false ∧ ∀ a ∈ b'.failed, a ∈ b.failed ∨ a = job.item) := by
  cases h with
  | attempt k h =>
      rcases attempt_outcome e call b k with hsame | ⟨job, hk, hstore, hok | hfail⟩
      · exact .inl hsame
      · exact .inr ⟨job, List.mem_of_getElem? hk, h job hk, hstore, .inl ⟨hok.1, hok.2.2⟩⟩
      · exact .inr ⟨job, List.mem_of_getElem? hk, h job hk, hstore, .inr ⟨hfail.1, hfail.2.2⟩⟩

/-- Where the store never fails, no try meets a failure. -/
theorem runFor_calm {Works : σ → Prop}
    (hcall : ∀ s a, Works s → fault s a = false ∧ Works (call s a).2) (fuel : Nat) (hb : Works b.store) :
    CalmSteps e call fault b (runFor e call fuel b) ∧ Works (runFor e call fuel b).store := by
  induction fuel generalizing b with
  | zero => exact ⟨.refl, hb⟩
  | succ fuel ih =>
      rw [runFor]
      split
      · exact ⟨.refl, hb⟩
      · have hstep : CalmStep e call fault b (b.attempt e call b.earliest) :=
          .attempt b _ fun job _ => (hcall _ job.item hb).1
        have hnext : Works (b.attempt e call b.earliest).store := by
          rcases attempt_outcome e call b b.earliest with hsame | ⟨job, -, hstore, -⟩
          · rwa [hsame]
          · rw [hstore]
            exact (hcall _ _ hb).2
        obtain ⟨hsteps, hworks⟩ := ih hnext
        exact ⟨.head hstep hsteps, hworks⟩

theorem run_calm {Works : σ → Prop} (hcall : ∀ s a, Works s → fault s a = false ∧ Works (call s a).2)
    {s : σ} (hs : Works s) (items : List α) :
    CalmSteps e call fault (.start e s items) (run e call s items) ∧ Works (run e call s items).store :=
  runFor_calm hcall _ hs

end

open PlacedStore

variable [ChunkStore σ] [PlacedStore σ] [LawfulPlaces σ] {ns : String} {s : σ}

/-- Whether the deletion of a name meets a failure of the store. -/
def deletionFault (ns : String) (s : σ) (name : String) : Bool := meetsFault (ChunkStore.delete s ns name).1

def creationFault (s : σ) (c : Chunk) : Bool := meetsFault (ChunkStore.create s c).1

/-! ## Deletions -/

section

variable {items : List String} {b b' : Batch σ String}

/-- What a batch of deletions has done to the namespace so far. -/
structure Clears (ns : String) (s : σ) (items : List String) (b : Batch σ String) : Prop where
  sound : Sound ns b.store
  onePlace : ∀ p n, OnePlace ns b.store p n ↔ OnePlace ns s p n
  contents : contents ns b.store ⊆ contents ns s
  taken : ∀ n, Taken ns b.store n → Taken ns s n ∧ ∀ p ∈ b.succeeded, ¬OnePlace ns s p n
  stays : ∀ n, Taken ns s n → (∀ p ∈ items, ¬OnePlace ns s p n) → Taken ns b.store n

omit [LawfulPlaces σ] in
theorem meetsFault_of_deleted {r : Except StoreError Unit}
    (h : r = .ok () ∨ ∃ missing, r = .error (.notFound missing)) : meetsFault r = false := by
  rcases h with rfl | ⟨missing, rfl⟩ <;> rfl

theorem deleteCall_eq_true {name : String} (hs : Sound ns s) :
    (deleteCall ns s name).1 = true ↔ deletionFault ns s name = false :=
  deleteCall_fst.trans ⟨meetsFault_of_deleted, (LawfulPlaces.deletion hs name).answer⟩

omit [LawfulPlaces σ] in
theorem Clears.start (hs : Sound ns s) : Clears ns s items (.start e s items) where
  sound := hs
  onePlace _ _ := Iff.rfl
  contents := List.Subset.refl _
  taken _ hn := ⟨hn, fun _ hp => (List.not_mem_nil hp).elim⟩
  stays _ hn _ := hn

theorem Clears.step (h : Clears ns s items b) (haccounts : Accounts e items b)
    (hstep : Step e (deleteCall ns) b b') : Clears ns s items b' := by
  rcases hstep.tried with ⟨job, hjob, hstore, hsucceeded⟩ | ⟨hstore, hsucceeded⟩
  · have hdeletion := LawfulPlaces.deletion h.sound job.item
    rw [deleteCall_snd] at hstore
    refine ⟨?_, fun p n => ?_, ?_, fun n hn => ?_, fun n hn hothers => ?_⟩
    · rw [hstore]
      exact hdeletion.sound
    · rw [hstore, hdeletion.onePlace, h.onePlace]
    · rw [hstore]
      exact List.Subset.trans hdeletion.contents h.contents
    · rw [hstore] at hn
      obtain ⟨hold, hne⟩ := h.taken n (hdeletion.taken n hn)
      refine ⟨hold, fun p hp => ?_⟩
      rw [hsucceeded] at hp
      split at hp
      · next hok =>
        rcases List.mem_append.mp hp with hp | hp
        · exact hne p hp
        · rw [List.mem_singleton.mp hp, ← h.onePlace]
          exact fun hplace => hdeletion.gone ((deleteCall_eq_true h.sound).mp hok) n hplace hn
      · exact hne p hp
    · rw [hstore]
      refine hdeletion.stays n (h.stays n hn hothers) fun hplace => ?_
      exact hothers _ (haccounts.mem_of_running hjob) ((h.onePlace _ _).mp hplace)
  · obtain ⟨hsound, honePlace, hcontents, htaken, hstays⟩ := h
    rw [← hstore] at hsound honePlace hcontents htaken hstays
    rw [← hsucceeded] at htaken
    exact ⟨hsound, honePlace, hcontents, htaken, hstays⟩

theorem Steps.clears (h : Steps e (deleteCall ns) (.start e s items) b) (hs : Sound ns s) :
    Clears ns s items b := by
  induction h with
  | refl => exact .start hs
  | tail hsteps hstep ih => exact ih.step (Steps.accounts hsteps) hstep

/-- Without failures of the store, every deletion succeeds. -/
theorem CalmSteps.failed_deletions
    (h : CalmSteps e (deleteCall ns) (deletionFault ns) (.start e s items) b) (hs : Sound ns s) :
    b.failed = [] := by
  induction h with
  | refl => rfl
  | tail hsteps hstep ih =>
      have hclears := (CalmSteps.steps hsteps).clears hs
      rcases hstep.outcome with rfl | ⟨job, -, hcalm, -, ⟨-, hsame⟩ | ⟨hfail, -⟩⟩
      · exact ih
      · rw [hsame, ih]
      · rw [(deleteCall_eq_true hclears.sound).mpr hcalm] at hfail
        cases hfail

end

/-! ## Creations -/

section

variable {items : List Chunk} {b b' : Batch σ Chunk}

/-- What a batch of creations has done to the namespace so far. -/
structure Fills (ns : String) (s : σ) (b : Batch σ Chunk) : Prop where
  sound : Sound ns b.store
  onePlace : ∀ p n, OnePlace ns b.store p n ↔ OnePlace ns s p n
  contents : (contents ns b.store).Perm (b.succeeded ++ contents ns s)
  taken : ∀ n, IsChunkName n → (Taken ns b.store n ↔ Taken ns s n ∨ n ∈ b.succeeded.map (·.name))
  free : ∀ c ∈ b.succeeded, IsChunkName c.name ∧ ¬Taken ns s c.name

omit [LawfulPlaces σ] in
theorem Fills.start (hs : Sound ns s) : Fills ns s (.start e s items) where
  sound := hs
  onePlace _ _ := Iff.rfl
  contents := .refl _
  taken _ _ := by
    rw [succeeded_start, List.map_nil, or_iff_left List.not_mem_nil]
    rfl
  free _ hc := (List.not_mem_nil hc).elim

theorem Fills.step (h : Fills ns s b) (hitems : Creatable ns items) (haccounts : Accounts e items b)
    (hstep : Step e createCall b b') : Fills ns s b' := by
  rcases hstep.tried with ⟨job, hjob, hstore, hsucceeded⟩ | ⟨hstore, hsucceeded⟩
  · obtain ⟨hns, hnumbered⟩ := hitems _ (haccounts.mem_of_running hjob)
    have hcreation := LawfulPlaces.creation h.sound hns hnumbered
    rw [createCall_snd] at hstore
    have hsound : Sound ns b'.store := hstore ▸ hcreation.sound
    have honePlace : ∀ p n, OnePlace ns b'.store p n ↔ OnePlace ns s p n := fun p n => by
      rw [hstore, hcreation.onePlace, h.onePlace]
    rcases hcreation.outcome with ⟨hok, hfree, hcontents, htaken⟩ | ⟨hfail, -, hcontents, htaken⟩
    · have hgrown : b'.succeeded = b.succeeded ++ [job.item] := by
        rw [hsucceeded, if_pos (createCall_fst.mpr hok)]
      refine ⟨hsound, honePlace, ?_, fun n hn => ?_, fun c hc => ?_⟩
      · rw [hstore, hgrown, List.append_assoc]
        exact (hcontents.trans (h.contents.cons _)).trans List.perm_middle.symm
      · rw [hstore, htaken n hn, h.taken n hn, hgrown, List.map_append, List.mem_append, or_assoc,
          List.map_singleton, List.mem_singleton]
      · rw [hgrown] at hc
        rcases List.mem_append.mp hc with hc | hc
        · exact h.free c hc
        · rw [List.mem_singleton.mp hc]
          exact ⟨hnumbered, fun hold => hfree ((h.taken _ hnumbered).mpr (.inl hold))⟩
    · have hsame : b'.succeeded = b.succeeded := by
        rw [hsucceeded, if_neg (mt createCall_fst.mp hfail)]
      refine ⟨hsound, honePlace, ?_, fun n hn => ?_, hsame ▸ h.free⟩
      · rw [hstore, hsame]
        exact hcontents.trans h.contents
      · rw [hstore, htaken n hn, h.taken n hn, hsame]
  · obtain ⟨hsound, honePlace, hcontents, htaken, hfree⟩ := h
    rw [← hstore] at hsound honePlace hcontents htaken
    rw [← hsucceeded] at hcontents htaken hfree
    exact ⟨hsound, honePlace, hcontents, htaken, hfree⟩

theorem Steps.fills (h : Steps e createCall (.start e s items) b) (hs : Sound ns s)
    (hitems : Creatable ns items) : Fills ns s b := by
  induction h with
  | refl => exact .start hs
  | tail hsteps hstep ih => exact ih.step hitems (Steps.accounts hsteps) hstep

/-- Without failures of the store, a creation fails only if its place was taken before the batch. -/
theorem CalmSteps.creations (h : CalmSteps e createCall creationFault (.start e s items) b)
    (hs : Sound ns s) (hitems : Creatable ns items) (hnodup : (items.map (·.name)).Nodup) :
    (∀ c ∈ b.failed, Taken ns s c.name) ∧
      (b.succeeded ≠ [] → ∃ cs, ChunkStore.list b.store ns = .ok cs) := by
  induction h with
  | refl => exact ⟨fun _ hc => (List.not_mem_nil hc).elim, fun hne => absurd rfl hne⟩
  | @tail b b' hsteps hstep ih =>
      have hfills := (CalmSteps.steps hsteps).fills hs hitems
      have haccounts := Steps.accounts (CalmSteps.steps hsteps)
      rcases hstep.outcome with rfl | ⟨job, hjob, hcalm, hstore, hresult⟩
      · exact ih
      · obtain ⟨hns, hnumbered⟩ := hitems _ (haccounts.mem_of_running hjob)
        have hcreation := LawfulPlaces.creation hfills.sound hns hnumbered
        rw [createCall_snd] at hstore
        refine ⟨fun c hc => ?_, fun _ => hstore ▸ hcreation.listable hcalm⟩
        rcases hresult with ⟨-, hsame⟩ | ⟨hfail, hfailed⟩
        · exact ih.1 c (hsame ▸ hc)
        · rcases hfailed c hc with hc | rfl
          · exact ih.1 c hc
          · -- What was in the way has not been put there by this batch, whose names are all different.
            rcases hcreation.outcome with ⟨hok, -⟩ | ⟨-, hrefused, -⟩
            · rw [createCall_fst.mpr hok] at hfail
              cases hfail
            · refine ((hfills.taken _ hnumbered).mp (hrefused hcalm)).resolve_right ?_
              exact haccounts.not_mem_succeeded hnodup hjob

end

end EdgeFleet.Batch
