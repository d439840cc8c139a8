import EdgeFleet.KeyMap.Lemmas
import EdgeFleet.Snapshot.Replacement
import EdgeFleet.Store.Memory

/-! # What stores guarantee

Whatever a store is made of, the snapshots rely on the same few laws: a listing shows what is held, a
chunk is held once it has been created, and no longer once it has been deleted.
-/

namespace EdgeFleet

/-- The name is that of a place in a generation. -/
def Chunk.IsNumbered (c : Chunk) : Prop := ∃ g i, c.name = nameOf g i

/-- The laws of one namespace of a store. Chunks may be held while the store cannot be listed. -/
class LawfulStore (σ : Type) [ChunkStore σ] where
  /-- Each chunk of the namespace is where its name says. -/
  Valid : String → σ → Prop
  Holds : String → σ → Chunk → Prop
  mem_list {ns : String} {s : σ} {cs : List Chunk} (hs : Valid ns s)
    (h : ChunkStore.list s ns = .ok cs) {c : Chunk} : c ∈ cs ↔ Holds ns s c
  nodup_list {ns : String} {s : σ} {cs : List Chunk} (hs : Valid ns s)
    (h : ChunkStore.list s ns = .ok cs) : (cs.map (·.name)).Nodup
  valid_create {ns : String} {s : σ} {c : Chunk} (hs : Valid ns s) (hns : c.ns = ns)
    (hc : c.IsNumbered) : Valid ns (ChunkStore.create s c).2
  holds_create {ns : String} {s : σ} {c : Chunk} (hs : Valid ns s) (hns : c.ns = ns)
    (hc : c.IsNumbered) {c' : Chunk} : Holds ns (ChunkStore.create s c).2 c' ↔
      Holds ns s c' ∨ c' = c ∧ (ChunkStore.create s c).1 = .ok ()
  valid_delete {ns : String} {s : σ} (hs : Valid ns s) (name : String) :
    Valid ns (ChunkStore.delete s ns name).2
  holds_of_delete {ns : String} {s : σ} (hs : Valid ns s) {name : String} {c : Chunk}
    (h : Holds ns (ChunkStore.delete s ns name).2 c) : Holds ns s c
  ne_of_delete {ns : String} {s : σ} (hs : Valid ns s) {name : String} {c : Chunk}
    (hok : (ChunkStore.delete s ns name).1 = .ok () ∨
      ∃ missing, (ChunkStore.delete s ns name).1 = .error (.notFound missing))
    (h : Holds ns (ChunkStore.delete s ns name).2 c) : c.name ≠ name
  list_create {ns : String} {s : σ} {c : Chunk} (hs : Valid ns s) (hns : c.ns = ns)
    (hc : c.IsNumbered) (h : ∃ cs, ChunkStore.list s ns = .ok cs) :
    ∃ cs, ChunkStore.list (ChunkStore.create s c).2 ns = .ok cs
  list_delete {ns : String} {s : σ} (hs : Valid ns s) {name : String}
    (h : ∃ cs, ChunkStore.list s ns = .ok cs) :
    ∃ cs, ChunkStore.list (ChunkStore.delete s ns name).2 ns = .ok cs

/-! ## Calls -/

section

variable {σ : Type} [ChunkStore σ]

theorem deleteCall_snd (ns : String) (s : σ) (name : String) :
    (deleteCall ns s name).2 = (ChunkStore.delete s ns name).2 := by
  unfold deleteCall
  split <;> simp [*]

theorem deleteCall_fst {ns : String} {s : σ} {name : String} : (deleteCall ns s name).1 = true ↔
    (ChunkStore.delete s ns name).1 = .ok () ∨
      ∃ missing, (ChunkStore.delete s ns name).1 = .error (.notFound missing) := by
  unfold deleteCall
  split <;> simp_all

theorem createCall_snd (s : σ) (c : Chunk) : (createCall s c).2 = (ChunkStore.create s c).2 := by
  unfold createCall
  split <;> simp [*]

theorem createCall_fst {s : σ} {c : Chunk} :
    (createCall s c).1 = true ↔ (ChunkStore.create s c).1 = .ok () := by
  unfold createCall
  split <;> simp [*]

end

/-! ## Chunks in memory -/

namespace MemoryStore

variable {ns : String} {s : MemoryStore}

/-- Every chunk of the namespace is filed under its name. -/
def Filed (ns : String) (s : MemoryStore) : Prop :=
  ∀ k c, (s.inNamespace ns).get? k = some c → c.name = k

theorem inNamespace_put (s : MemoryStore) (c : Chunk) :
    (s.put c).inNamespace c.ns = (s.inNamespace c.ns).insert c.name c := by
  simp [put, inNamespace]

/-- Whatever chunks are put into a store, each of them is filed under its name. -/
theorem Filed.put (h : Filed ns s) (c : Chunk) : Filed ns (s.put c) := by
  intro k c' hk
  by_cases hns : ns = c.ns
  · subst hns
    rw [inNamespace_put, KeyMap.get?_insert] at hk
    split at hk
    · next hkey =>
      cases hk
      exact hkey.symm
    · exact h k c' hk
  · have hother : (s.put c).inNamespace ns = s.inNamespace ns := by
      simp [MemoryStore.put, inNamespace, KeyMap.get?_insert_of_ne _ _ hns]
    rw [hother] at hk
    exact h k c' hk

/-- A new chunk is created, or the chunks stay as they are. -/
theorem create_cases (s : MemoryStore) (c : Chunk) :
    (s.create c).1 = .ok () ∧ (s.inNamespace c.ns).get? c.name = none ∧
        (s.create c).2.inNamespace c.ns = (s.inNamespace c.ns).insert c.name c ∨
      (s.create c).1 ≠ .ok () ∧ (s.create c).2.inNamespace c.ns = s.inNamespace c.ns := by
  simp only [create]
  split
  · exact .inr ⟨by simp, rfl⟩
  · split
    · exact .inr ⟨by simp, rfl⟩
    · split
      · exact .inr ⟨by simp, rfl⟩
      · next hnew =>
        have hnew : ¬(s.inNamespace c.ns).contains c.name = true := hnew
        exact .inl ⟨rfl, by simpa [KeyMap.contains_eq] using hnew, inNamespace_put _ c⟩

/-- A chunk is gone after its deletion, or the chunks stay as they are. -/
theorem delete_cases (s : MemoryStore) (ns name : String) :
    (s.delete ns name).2.inNamespace ns = (s.inNamespace ns).erase name ∨
      (s.delete ns name).2.inNamespace ns = s.inNamespace ns ∧
        ((s.inNamespace ns).get? name = none ∨
          ∃ outage, (s.delete ns name).1 = .error (.unavailable outage)) := by
  simp only [delete]
  split
  · exact .inr ⟨rfl, .inr ⟨_, rfl⟩⟩
  · split
    · exact .inr ⟨rfl, .inr ⟨_, rfl⟩⟩
    · split
      · exact .inl (by simp [inNamespace])
      · next hmissing =>
        have hmissing : ¬(s.inNamespace ns).contains name = true := hmissing
        exact .inr ⟨rfl, .inl (by simpa [KeyMap.contains_eq] using hmissing)⟩

theorem isDown_create (s : MemoryStore) (c : Chunk) : (s.create c).2.isDown = s.isDown := by
  simp only [create]
  split
  · rfl
  · split
    · rfl
    · split <;> rfl

theorem isDown_delete (s : MemoryStore) (ns name : String) : (s.delete ns name).2.isDown = s.isDown := by
  simp only [delete]
  split
  · rfl
  · split
    · rfl
    · split <;> rfl

theorem list_eq_ok {cs : List Chunk} :
    s.list ns = .ok cs ↔ s.isDown = false ∧ cs = (s.inNamespace ns).values := by
  unfold list
  cases s.isDown <;> simp [eq_comm]

instance : LawfulStore MemoryStore where
  Valid := Filed
  Holds ns s c := (s.inNamespace ns).get? c.name = some c
  mem_list {ns s cs} hs h c := by
    rw [(list_eq_ok.mp h).2, KeyMap.mem_values]
    constructor
    · rintro ⟨k, hk⟩
      rwa [hs k c hk]
    · intro hc
      exact ⟨c.name, hc⟩
  nodup_list {ns s cs} hs h := by
    have hnames : cs.map (·.name) = (s.inNamespace ns).keys := by
      rw [(list_eq_ok.mp h).2, KeyMap.values, KeyMap.keys, List.map_map]
      refine List.map_congr_left fun e he => ?_
      exact hs e.1 e.2 (KeyMap.mem_toList _ |>.mp he)
    rw [hnames]
    exact KeyMap.nodup_keys _
  valid_create {ns s c} hs hns _ := by
    subst hns
    intro k c' hk
    change ((s.create c).2.inNamespace c.ns).get? k = some c' at hk
    rcases create_cases s c with ⟨-, -, heq⟩ | ⟨-, heq⟩
    · rw [heq, KeyMap.get?_insert] at hk
      split at hk
      · next hkey =>
        cases hk
        exact hkey.symm
      · exact hs k c' hk
    · rw [heq] at hk
      exact hs k c' hk
  holds_create {ns s c} hs hns _ c' := by
    subst hns
    change ((s.create c).2.inNamespace c.ns).get? c'.name = some c' ↔
      (s.inNamespace c.ns).get? c'.name = some c' ∨ c' = c ∧ (s.create c).1 = .ok ()
    rcases create_cases s c with ⟨hok, hnew, heq⟩ | ⟨hfail, heq⟩
    · rw [heq, KeyMap.get?_insert]
      by_cases hname : c'.name = c.name
      · rw [if_pos hname, hname, hnew]
        simp [hok, eq_comm]
      · have hne : c' ≠ c := fun h => hname (congrArg Chunk.name h)
        simp [hname, hne]
    · rw [heq]
      simp [hfail]
  valid_delete {ns s} hs name := by
    intro k c hk
    change ((s.delete ns name).2.inNamespace ns).get? k = some c at hk
    rcases delete_cases s ns name with heq | ⟨heq, -⟩
    · rw [heq, KeyMap.get?_erase] at hk
      split at hk
      · cases hk
      · exact hs k c hk
    · rw [heq] at hk
      exact hs k c hk
  holds_of_delete {ns s} hs name c h := by
    change ((s.delete ns name).2.inNamespace ns).get? c.name = some c at h
    rcases delete_cases s ns name with heq | ⟨heq, -⟩
    · rw [heq, KeyMap.get?_erase] at h
      split at h
      · cases h
      · exact h
    · rwa [heq] at h
  ne_of_delete {ns s} hs name c hok h := by
    rintro rfl
    change ((s.delete ns c.name).2.inNamespace ns).get? c.name = some c at h
    rcases delete_cases s ns c.name with heq | ⟨heq, hmissing | ⟨outage, hfail⟩⟩
    · rw [heq, KeyMap.get?_erase, if_pos rfl] at h
      cases h
    · rw [heq, hmissing] at h
      cases h
    · change (s.delete ns c.name).1 = .ok () ∨ ∃ missing, (s.delete ns c.name).1 = .error (.notFound missing) at hok
      rw [hfail] at hok
      simp at hok
  list_create {ns s c} _ _ _ h := by
    obtain ⟨cs, hcs⟩ := h
    exact ⟨_, list_eq_ok.mpr ⟨(isDown_create s c).trans (list_eq_ok.mp hcs).1, rfl⟩⟩
  list_delete {ns s} _ name h := by
    obtain ⟨cs, hcs⟩ := h
    exact ⟨_, list_eq_ok.mpr ⟨(isDown_delete s ns name).trans (list_eq_ok.mp hcs).1, rfl⟩⟩

theorem valid_empty : LawfulStore.Valid ns MemoryStore.empty := fun k c h => by
  simp [inNamespace, MemoryStore.empty] at h

theorem not_holds_empty (c : Chunk) : ¬LawfulStore.Holds ns MemoryStore.empty c := fun h => by
  simp [LawfulStore.Holds, inNamespace, MemoryStore.empty] at h

end MemoryStore

/-! ## One of two stores -/

instance {σ τ : Type} [ChunkStore σ] [ChunkStore τ] [LawfulStore σ] [LawfulStore τ] :
    LawfulStore (σ ⊕ τ) where
  Valid ns := Sum.elim (LawfulStore.Valid ns) (LawfulStore.Valid ns)
  Holds ns := Sum.elim (LawfulStore.Holds ns) (LawfulStore.Holds ns)
  mem_list {ns s cs} hs h c := by
    cases s with
    | inl s => exact LawfulStore.mem_list hs h
    | inr t => exact LawfulStore.mem_list hs h
  nodup_list {ns s cs} hs h := by
    cases s with
    | inl s => exact LawfulStore.nodup_list hs h
    | inr t => exact LawfulStore.nodup_list hs h
  valid_create {ns s c} hs hns hc := by
    cases s with
    | inl s => exact LawfulStore.valid_create (s := s) hs hns hc
    | inr t => exact LawfulStore.valid_create (s := t) hs hns hc
  holds_create {ns s c} hs hns hc c' := by
    cases s with
    | inl s => exact LawfulStore.holds_create (s := s) hs hns hc
    | inr t => exact LawfulStore.holds_create (s := t) hs hns hc
  valid_delete {ns s} hs name := by
    cases s with
    | inl s => exact LawfulStore.valid_delete (s := s) hs name
    | inr t => exact LawfulStore.valid_delete (s := t) hs name
  holds_of_delete {ns s} hs name c h := by
    cases s with
    | inl s => exact LawfulStore.holds_of_delete (s := s) hs h
    | inr t => exact LawfulStore.holds_of_delete (s := t) hs h
  ne_of_delete {ns s} hs name c hok h := by
    cases s with
    | inl s => exact LawfulStore.ne_of_delete (s := s) hs hok h
    | inr t => exact LawfulStore.ne_of_delete (s := t) hs hok h
  list_create {ns s c} hs hns hc h := by
    cases s with
    | inl s => exact LawfulStore.list_create (s := s) hs hns hc h
    | inr t => exact LawfulStore.list_create (s := t) hs hns hc h
  list_delete {ns s} hs name h := by
    cases s with
    | inl s => exact LawfulStore.list_delete (s := s) hs h
    | inr t => exact LawfulStore.list_delete (s := t) hs h

end EdgeFleet
