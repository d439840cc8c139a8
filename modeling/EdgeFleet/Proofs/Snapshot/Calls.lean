import EdgeFleet.Proofs.Snapshot.Batch
import EdgeFleet.Proofs.Snapshot.Chunks
import EdgeFleet.Proofs.Store.Lawful

/-! # What batches of store calls do

Whatever the order of the calls, and whichever of them fail: deletions add nothing to a namespace, and
what was deleted is gone; creations remove nothing, and what was created is there.
-/

namespace EdgeFleet.Batch

variable {σ : Type} [ChunkStore σ] [LawfulStore σ] {ns : String} {e : Effort}

/-! ## Deletions -/

/-- What becomes of a namespace while chunks are deleted. -/
structure Shrinks (ns : String) (b b' : Batch σ String) : Prop where
  valid : LawfulStore.Valid ns b'.store
  holds : ∀ c, LawfulStore.Holds ns b'.store c → LawfulStore.Holds ns b.store c
  gone : ∀ c, LawfulStore.Holds ns b'.store c → c.name ∈ b'.succeeded → c.name ∈ b.succeeded
  listable : (∃ cs, ChunkStore.list b.store ns = .ok cs) → ∃ cs, ChunkStore.list b'.store ns = .ok cs

theorem Step.shrinks {b b' : Batch σ String} (h : Step e (deleteCall ns) b b')
    (hvalid : LawfulStore.Valid ns b.store) : Shrinks ns b b' := by
  rcases h.outcome with ⟨job, -, hstore, hsucceeded⟩ | ⟨hstore, hsucceeded⟩
  · rw [deleteCall_snd] at hstore
    refine ⟨?_, fun c hc => ?_, fun c hc hname => ?_, fun hlist => ?_⟩
    · rw [hstore]
      exact LawfulStore.valid_delete hvalid job.item
    · rw [hstore] at hc
      exact LawfulStore.holds_of_delete hvalid hc
    · rw [hstore] at hc
      rcases (hsucceeded c.name).mp hname with hold | ⟨hitem, hok⟩
      · exact hold
      · exact absurd hitem (LawfulStore.ne_of_delete hvalid (deleteCall_fst.mp hok) hc)
    · rw [hstore]
      exact LawfulStore.list_delete hvalid hlist
  · refine ⟨?_, fun c hc => ?_, fun c _ => (hsucceeded c.name).mp, fun hlist => ?_⟩
    · rwa [hstore]
    · rwa [hstore] at hc
    · rwa [hstore]

theorem Steps.shrinks {b b' : Batch σ String} (h : Steps e (deleteCall ns) b b')
    (hvalid : LawfulStore.Valid ns b.store) : Shrinks ns b b' := by
  induction h with
  | refl => exact ⟨hvalid, fun c hc => hc, fun c _ hname => hname, fun hlist => hlist⟩
  | tail _ hstep ih =>
      have hlast := hstep.shrinks ih.valid
      exact ⟨hlast.valid, fun c hc => ih.holds c (hlast.holds c hc),
        fun c hc hname => ih.gone c (hlast.holds c hc) (hlast.gone c hc hname),
        fun hlist => hlast.listable (ih.listable hlist)⟩

/-! ## Creations -/

/-- What becomes of a namespace while chunks are created. -/
structure Grows (ns : String) (b b' : Batch σ Chunk) : Prop where
  valid : LawfulStore.Valid ns b'.store
  holds : ∀ c, LawfulStore.Holds ns b'.store c → LawfulStore.Holds ns b.store c ∨ c ∈ b'.succeeded
  stays : ∀ c, LawfulStore.Holds ns b.store c → LawfulStore.Holds ns b'.store c
  added : ∀ c ∈ b'.succeeded, c ∈ b.succeeded ∨ LawfulStore.Holds ns b'.store c
  succeeded : ∀ c ∈ b.succeeded, c ∈ b'.succeeded
  listable : (∃ cs, ChunkStore.list b.store ns = .ok cs) → ∃ cs, ChunkStore.list b'.store ns = .ok cs

/-- Chunks of the namespace with names as snapshots give them. -/
def Creatable (ns : String) (cs : List Chunk) : Prop := ∀ c ∈ cs, c.ns = ns ∧ c.IsNumbered

theorem creatable_chunksOf {ns : String} {g max : Nat} {data : Bytes} :
    Creatable ns (chunksOf ns g max data) := by
  intro c hc
  obtain ⟨i, piece, -, rfl⟩ := mem_chunksOf.mp hc
  exact ⟨rfl, g, i, rfl⟩

theorem Step.grows {b b' : Batch σ Chunk} (h : Step e createCall b b')
    (hvalid : LawfulStore.Valid ns b.store) {items : List Chunk} (hitems : Creatable ns items)
    (haccounts : Accounts e items b) : Grows ns b b' := by
  rcases h.outcome with ⟨job, hjob, hstore, hsucceeded⟩ | ⟨hstore, hsucceeded⟩
  · obtain ⟨hns, hnumbered⟩ := hitems _ (haccounts.mem_of_running hjob)
    rw [createCall_snd] at hstore
    simp only [createCall_fst] at hsucceeded
    have hholds : ∀ c, LawfulStore.Holds ns b'.store c ↔ LawfulStore.Holds ns b.store c ∨
        c = job.item ∧ (ChunkStore.create b.store job.item).1 = .ok () := by
      intro c
      rw [hstore]
      exact LawfulStore.holds_create hvalid hns hnumbered
    refine ⟨?_, fun c hc => ?_, fun c hc => (hholds c).mpr (.inl hc), fun c hc => ?_,
      fun c hc => (hsucceeded c).mpr (.inl hc), fun hlist => ?_⟩
    · rw [hstore]
      exact LawfulStore.valid_create hvalid hns hnumbered
    · exact ((hholds c).mp hc).imp_right fun hnew => (hsucceeded c).mpr (.inr hnew)
    · exact ((hsucceeded c).mp hc).imp_right fun hnew => (hholds c).mpr (.inr hnew)
    · rw [hstore]
      exact LawfulStore.list_create hvalid hns hnumbered hlist
  · refine ⟨?_, fun c hc => ?_, fun c hc => ?_, fun c hc => .inl ((hsucceeded c).mp hc),
      fun c => (hsucceeded c).mpr, fun hlist => ?_⟩
    · rwa [hstore]
    · rw [hstore] at hc
      exact .inl hc
    · rwa [hstore]
    · rwa [hstore]

theorem Steps.grows {b b' : Batch σ Chunk} (h : Steps e createCall b b')
    (hvalid : LawfulStore.Valid ns b.store) {items : List Chunk} (hitems : Creatable ns items)
    (haccounts : Accounts e items b) : Grows ns b b' := by
  induction h with
  | refl =>
      exact ⟨hvalid, fun c hc => .inl hc, fun c hc => hc, fun c hc => .inl hc, fun c hc => hc,
        fun hlist => hlist⟩
  | tail hsteps hstep ih =>
      have hlast := hstep.grows ih.valid hitems (haccounts.steps hsteps)
      refine ⟨hlast.valid, fun c hc => ?_, fun c hc => hlast.stays c (ih.stays c hc), fun c hc => ?_,
        fun c hc => hlast.succeeded c (ih.succeeded c hc), fun hlist => hlast.listable (ih.listable hlist)⟩
      · rcases hlast.holds c hc with hc | hnew
        · exact (ih.holds c hc).imp_right (hlast.succeeded c)
        · exact .inr hnew
      · rcases hlast.added c hc with hc | hnew
        · exact (ih.added c hc).imp_right (hlast.stays c)
        · exact .inr hnew

end EdgeFleet.Batch
