import EdgeFleet.Proofs.Compression.Codec
import EdgeFleet.Proofs.Fleet.Forms
import EdgeFleet.Proofs.Snapshot.Chunks

/-! # What is read back from a store

The chunks of a generation, in whatever order they are listed, give back the agents that were stored
in them. New generations are numbered above all that are in the store.
-/

namespace EdgeFleet

/-- The chunks in which the agents of a generation are stored. -/
def snapshotChunks (ns : String) (codec : Codec) (g max : Nat) (agents : AgentMap) : List Chunk :=
  chunksOf ns g max (codec.compress agents.encode)

namespace AgentMap

theorem encode_ne_nil (m : AgentMap) : m.encode ≠ [] := by
  simp [encode, toJson, Json.ofMap, Json.record, Json.render]

end AgentMap

namespace Restored

variable {ns : String} {codec : Codec} {g max : Nat} {agents : AgentMap} {cs : List Chunk}

theorem readAgents?_of_isComplete (hmem : ∀ c ∈ cs, c ∈ snapshotChunks ns codec g max agents)
    (h : isComplete cs = true) : readAgents? codec cs = some agents := by
  have hdata : cs.flatMap (·.data) = codec.compress agents.encode := by
    rw [eq_chunksOf_of_isComplete hmem h, flatMap_data_chunksOf]
  rw [readAgents?, hdata, Codec.decompress?_compress]
  simp [h, guard, AgentMap.decode?_encode]

/-- Chunks of one snapshot are read as that snapshot, or not at all. -/
theorem eq_of_readAgents? (hmem : ∀ c ∈ cs, c ∈ snapshotChunks ns codec g max agents) {m : AgentMap}
    (h : readAgents? codec cs = some m) : m = agents := by
  by_cases hcomplete : isComplete cs = true
  · rw [readAgents?_of_isComplete hmem hcomplete] at h
    exact (Option.some.inj h).symm
  · simp [readAgents?, hcomplete, guard] at h

theorem newest?_spec {m : AgentMap} (h : newest? codec cs = some (g, m)) :
    g ∈ generations cs ∧ readAgents? codec (chunksIn cs g) = some m := by
  obtain ⟨g', hg, hread⟩ := List.exists_of_findSome?_eq_some h
  obtain ⟨m', hm, heq⟩ := Option.map_eq_some_iff.mp hread
  obtain ⟨rfl, rfl⟩ := Prod.mk.inj heq
  exact ⟨hg, hm⟩

theorem pairwise_generations (cs : List Chunk) : (generations cs).Pairwise fun a b => b ≤ a := by
  have hsorted : (generations cs).Pairwise fun a b => decide (b ≤ a) = true :=
    List.pairwise_mergeSort
      (fun a b c hab hbc => by
        rw [decide_eq_true_eq] at hab hbc ⊢
        exact Nat.le_trans hbc hab)
      (fun a b => by simpa using Nat.le_total b a) _
  exact hsorted.imp of_decide_eq_true

theorem lt_nextGeneration {c : Chunk} (hc : c ∈ cs) (hg : c.partOf? = some g) :
    g < (ofChunks codec cs).nextGeneration := by
  have hmem : g ∈ generations cs := mem_generations.mpr ⟨c, hc, hg⟩
  have hsorted := pairwise_generations cs
  cases hgs : generations cs with
  | nil => rw [hgs] at hmem; cases hmem
  | cons top rest =>
      rw [hgs] at hmem hsorted
      have hnext : (ofChunks codec cs).nextGeneration = top + 1 := by simp [ofChunks, hgs]
      rw [hnext]
      rcases List.mem_cons.mp hmem with rfl | hmem
      · exact Nat.lt_succ_self _
      · exact Nat.lt_succ_of_le (List.rel_of_pairwise_cons hsorted hmem)

theorem generations_eq_cons (hmem : g ∈ generations cs) (hmax : ∀ g' ∈ generations cs, g' ≤ g) :
    ∃ rest, generations cs = g :: rest := by
  have hsorted := pairwise_generations cs
  cases hgs : generations cs with
  | nil => rw [hgs] at hmem; cases hmem
  | cons top rest =>
      rw [hgs] at hmem hmax hsorted
      rcases List.mem_cons.mp hmem with rfl | hrest
      · exact ⟨rest, rfl⟩
      · have hle : g ≤ top := List.rel_of_pairwise_cons hsorted hrest
        exact ⟨rest, by rw [Nat.le_antisymm (hmax top List.mem_cons_self) hle]⟩

/-- A whole snapshot is read back among the chunks of older ones, in whatever order they are listed. -/
theorem ofChunks_of_newest (hsize : (codec.compress agents.encode).length < UInt64.size)
    (hnew : (cs.filter fun c => c.partOf? = some g).Perm (snapshotChunks ns codec g max agents))
    (hold : ∀ c ∈ cs, ∀ g', c.partOf? = some g' → g' ≤ g) :
    ofChunks codec cs = ⟨agents, some g, cs.map (·.name), g + 1⟩ := by
  have hdata : codec.compress agents.encode ≠ [] := codec.compress_ne_nil agents.encode_ne_nil
  have hchunks : chunksIn cs g = snapshotChunks ns codec g max agents := chunksIn_of_perm hsize hnew
  have hmem : g ∈ generations cs := by
    have hne : chunksIn cs g ≠ [] := hchunks ▸ mt chunksOf_eq_nil_iff.mp hdata
    obtain ⟨c, hc⟩ := List.exists_mem_of_ne_nil _ hne
    exact mem_generations.mpr ⟨c, mem_chunksIn.mp hc⟩
  obtain ⟨rest, hgenerations⟩ := generations_eq_cons hmem fun g' hg' => by
    obtain ⟨c, hc, hpart⟩ := mem_generations.mp hg'
    exact hold c hc g' hpart
  have hread : readAgents? codec (chunksIn cs g) = some agents := by
    rw [hchunks]
    exact readAgents?_of_isComplete (fun c hc => hc) (isComplete_chunksOf hdata hsize)
  have hnewest : newest? codec cs = some (g, agents) := by
    simp [newest?, hgenerations, hread]
  simp [ofChunks, hnewest, hgenerations]

/-- The whole of one snapshot is read back, in whatever order its chunks are listed. -/
theorem ofChunks_of_perm (hg : g < UInt64.size)
    (hsize : (codec.compress agents.encode).length < UInt64.size)
    (h : cs.Perm (snapshotChunks ns codec g max agents)) :
    ofChunks codec cs = ⟨agents, some g, cs.map (·.name), g + 1⟩ := by
  have hpart : ∀ c ∈ cs, c.partOf? = some g := fun c hc => by
    rw [partOf?_of_mem_chunksOf (h.subset hc), if_pos hg]
  have hall : cs.filter (fun c => c.partOf? = some g) = cs :=
    List.filter_eq_self.mpr fun c hc => decide_eq_true (hpart c hc)
  refine ofChunks_of_newest hsize (hall.symm ▸ h) fun c hc g' hg' => ?_
  rw [hpart c hc] at hg'
  exact (Option.some.inj hg').ge

end Restored

theorem restore_eq_ok {σ : Type} [ChunkStore σ] {store : σ} {ns : String} {codec : Codec} {r : Restored} :
    restore store ns codec = .ok r ↔
      ∃ cs, ChunkStore.list store ns = .ok cs ∧ Restored.ofChunks codec cs = r := by
  unfold restore
  cases ChunkStore.list store ns <;> simp [Except.map]

end EdgeFleet
