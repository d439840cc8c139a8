import EdgeFleet.Proofs.Snapshot.Restore
import Mathlib.Order.Bounds.Basic

/-! # Which snapshot is read back

A namespace may hold chunks of several generations, some of them torn, and chunks of nothing at all. The
snapshot that is read is the greatest one that is whole and can be read, whatever the order of the listing.
-/

namespace EdgeFleet.Restored

variable {codec : Codec} {cs cs' parts : List Chunk} {g : Nat} {agents : AgentMap}

/-! ## Whole snapshots -/

/-- The chunks of a generation, in the order of their indices, describe the agents: the indices run from zero
without a gap, every chunk tells how many there are, and their data can be read. -/
structure IsSnapshot (codec : Codec) (cs : List Chunk) (g : Nat) (agents : AgentMap) (parts : List Chunk) :
    Prop where
  chunks : parts.Perm (cs.filter fun c => c.isSummary ∧ c.generation? = some g)
  indices : parts.map (·.index.toNat) = List.range parts.length
  totals : ∀ c ∈ parts, c.total? = some parts.length
  content : ∃ data, codec.decompress? (parts.flatMap (·.data)) = some data ∧
    AgentMap.decode? data = some agents

def Describes (codec : Codec) (cs : List Chunk) (g : Nat) (agents : AgentMap) : Prop :=
  ∃ parts, IsSnapshot codec cs g agents parts

theorem partOf?_eq_some {c : Chunk} : c.partOf? = some g ↔ c.isSummary ∧ c.generation? = some g := by
  simp [Chunk.partOf?]

theorem isComplete_iff_indices : isComplete parts = true ↔
    parts ≠ [] ∧ parts.map (·.index.toNat) = List.range parts.length ∧
      ∀ c ∈ parts, c.total? = some parts.length := by
  rw [isComplete_iff]
  refine and_congr_right fun _ => ⟨fun h => ⟨?_, fun c hc => ?_⟩, fun ⟨hindices, htotals⟩ i c hc => ⟨?_, ?_⟩⟩
  · refine List.ext_getElem (by simp) fun i hi _ => ?_
    rw [List.length_map] at hi
    simpa using (h i _ (List.getElem?_eq_getElem hi)).1
  · obtain ⟨i, hi⟩ := List.mem_iff_getElem?.mp hc
    exact (h i c hi).2
  · have hi : i < parts.length := (List.getElem?_eq_some_iff.mp hc).1
    have hindex : (parts.map (·.index.toNat))[i]? = some i := by rw [hindices, List.getElem?_range hi]
    rw [List.getElem?_map, hc] at hindex
    exact Option.some.inj hindex
  · exact htotals c (List.mem_of_getElem? hc)

theorem pairwise_index (h : parts.map (·.index.toNat) = List.range parts.length) :
    parts.Pairwise fun a b => a.index < b.index := by
  have hrange : (parts.map (·.index.toNat)).Pairwise (· < ·) := h ▸ List.pairwise_lt_range
  exact (List.pairwise_map.mp hrange).imp UInt64.lt_iff_toNat_lt.mpr

/-- Where there is no data at all, no agents are described. -/
theorem not_content_nil {data : Bytes} (h : codec.decompress? [] = some data) :
    AgentMap.decode? data = none := by
  cases codec with
  | none => cases h; rfl
  | gzip => cases h
  | deflate => cases h
  | zstd => cases h

theorem readAgents?_eq_some_iff : readAgents? codec parts = some agents ↔ isComplete parts = true ∧
    ∃ data, codec.decompress? (parts.flatMap (·.data)) = some data ∧ AgentMap.decode? data = some agents := by
  by_cases hcomplete : isComplete parts = true
  · simp [readAgents?, hcomplete, guard, Option.bind_eq_some_iff]
  · simp [readAgents?, hcomplete, guard]

theorem describes_iff : Describes codec cs g agents ↔ readAgents? codec (chunksIn cs g) = some agents := by
  have hmarked : (cs.filter fun c => c.partOf? = some g) =
      cs.filter fun c => c.isSummary ∧ c.generation? = some g :=
    List.filter_congr fun c _ => decide_eq_decide.mpr partOf?_eq_some
  rw [readAgents?_eq_some_iff, isComplete_iff_indices]
  constructor
  · rintro ⟨parts, hchunks, hindices, htotals, data, hdata, hdecode⟩
    have hparts : chunksIn cs g = parts :=
      chunksIn_eq_of_pairwise (hmarked ▸ hchunks.symm) (pairwise_index hindices)
    have hne : parts ≠ [] := by
      rintro rfl
      rw [not_content_nil hdata] at hdecode
      cases hdecode
    exact hparts ▸ ⟨⟨hne, hindices, htotals⟩, data, hdata, hdecode⟩
  · rintro ⟨⟨-, hindices, htotals⟩, hcontent⟩
    exact ⟨_, hmarked ▸ List.mergeSort_perm _ _, hindices, htotals, hcontent⟩

theorem Describes.of_perm (h : Describes codec cs g agents) (hperm : cs.Perm cs') :
    Describes codec cs' g agents := by
  obtain ⟨parts, hchunks, hindices, htotals, hcontent⟩ := h
  exact ⟨parts, hchunks.trans (hperm.filter _), hindices, htotals, hcontent⟩

/-! ## The greatest one -/

theorem Describes.mem_generations (h : Describes codec cs g agents) : g ∈ generations cs := by
  have hcomplete := (readAgents?_eq_some_iff.mp (describes_iff.mp h)).1
  obtain ⟨c, hc⟩ := List.exists_mem_of_ne_nil _ (isComplete_iff_indices.mp hcomplete).1
  exact Restored.mem_generations.mpr ⟨c, mem_chunksIn.mp hc⟩

theorem newest?_ne_none (h : Describes codec cs g agents) : newest? codec cs ≠ none := by
  intro hnone
  have hread := List.findSome?_eq_none_iff.mp hnone g h.mem_generations
  rw [describes_iff.mp h] at hread
  cases hread

/-- The generations are gone through from the greatest one down, and the first that can be read is taken. -/
theorem newest?_le (h : newest? codec cs = some (g, agents)) {g' : Nat} {agents' : AgentMap}
    (h' : Describes codec cs g' agents') : g' ≤ g := by
  obtain ⟨before, top, after, hgenerations, hread, hbefore⟩ := List.findSome?_eq_some_iff.mp h
  obtain ⟨_, -, heq⟩ := Option.map_eq_some_iff.mp hread
  obtain ⟨rfl, -⟩ := Prod.mk.inj heq
  have hmem := h'.mem_generations
  have hsorted := pairwise_generations cs
  rw [hgenerations] at hmem hsorted
  rcases List.mem_append.mp hmem with hmem | hmem
  · have hnone := hbefore g' hmem
    rw [describes_iff.mp h'] at hnone
    cases hnone
  · rcases List.mem_cons.mp hmem with rfl | hmem
    · exact Nat.le_refl _
    · exact List.rel_of_pairwise_cons (List.pairwise_append.mp hsorted).2.1 hmem

theorem newest?_eq_some_iff : newest? codec cs = some (g, agents) ↔ Describes codec cs g agents ∧
    ∀ g' agents', Describes codec cs g' agents' → g' ≤ g := by
  constructor
  · intro h
    exact ⟨describes_iff.mpr (newest?_spec h).2, fun _ _ => newest?_le h⟩
  · rintro ⟨h, hgreatest⟩
    obtain ⟨⟨g', agents'⟩, hnewest⟩ := Option.ne_none_iff_exists'.mp (newest?_ne_none h)
    have hread' := (newest?_spec hnewest).2
    have hg : g' = g :=
      Nat.le_antisymm (hgreatest _ _ (describes_iff.mpr hread')) (newest?_le hnewest h)
    subst hg
    rw [hnewest, Option.some.inj (hread'.symm.trans (describes_iff.mp h))]

/-! ## What is restored -/

/-- The numbers of the generations that have chunks, whole or not. -/
def numbers (cs : List Chunk) : Set Nat := {g | ∃ c ∈ cs, c.isSummary ∧ c.generation? = some g}

theorem mem_numbers : g ∈ numbers cs ↔ g ∈ generations cs := by
  simp [numbers, Restored.mem_generations, partOf?_eq_some]

theorem numbers_of_perm (h : cs.Perm cs') : numbers cs = numbers cs' :=
  Set.ext fun _ => exists_congr fun _ => and_congr_left fun _ => h.mem_iff

/-- The greatest whole snapshot is read, if there is one, and the numbering goes on behind all of them. -/
structure Selects (codec : Codec) (cs : List Chunk) (r : Restored) : Prop where
  newest : ∀ g agents, r.generation = some g ∧ r.agents = agents ↔ Describes codec cs g agents ∧
    ∀ g' agents', Describes codec cs g' agents' → g' ≤ g
  otherwise : r.generation = none → r.agents = ∅
  next : numbers cs = ∅ ∧ r.nextGeneration = 0 ∨ ∃ top, IsGreatest (numbers cs) top ∧ r.nextGeneration = top + 1
  names : r.names = cs.map (·.name)

theorem next_ofChunks (codec : Codec) (cs : List Chunk) :
    numbers cs = ∅ ∧ (ofChunks codec cs).nextGeneration = 0 ∨
      ∃ top, IsGreatest (numbers cs) top ∧ (ofChunks codec cs).nextGeneration = top + 1 := by
  cases hgenerations : generations cs with
  | nil =>
      refine .inl ⟨Set.eq_empty_of_forall_notMem fun g hg => ?_, by simp [ofChunks, hgenerations]⟩
      rw [mem_numbers, hgenerations] at hg
      cases hg
  | cons top rest =>
      have htop : (ofChunks codec cs).nextGeneration = top + 1 := by simp [ofChunks, hgenerations]
      refine .inr ⟨top, ⟨mem_numbers.mpr (hgenerations ▸ List.mem_cons_self), fun g hg => ?_⟩, htop⟩
      obtain ⟨c, hc, hpart⟩ := Restored.mem_generations.mp (mem_numbers.mp hg)
      have hlt : g < (ofChunks codec cs).nextGeneration := lt_nextGeneration hc hpart
      omega

theorem selects_ofChunks (codec : Codec) (cs : List Chunk) : Selects codec cs (ofChunks codec cs) where
  newest g agents := by
    rw [← newest?_eq_some_iff]
    cases hnewest : newest? codec cs with
    | none => simp [ofChunks, hnewest]
    | some found =>
        obtain ⟨g', agents'⟩ := found
        simp [ofChunks, hnewest]
  otherwise hnone := by
    have hnewest : newest? codec cs = none := Option.map_eq_none_iff.mp hnone
    simp [ofChunks, hnewest]
  next := next_ofChunks codec cs
  names := rfl

/-- Nothing but the names depends on the order. -/
theorem Selects.eq_of_perm {r r' : Restored} (h : Selects codec cs r) (h' : Selects codec cs' r')
    (hperm : cs'.Perm cs) : r' = { r with names := r'.names } := by
  have hdescribes : ∀ g agents, Describes codec cs' g agents ↔ Describes codec cs g agents := fun g agents =>
    ⟨fun hd => hd.of_perm hperm, fun hd => hd.of_perm hperm.symm⟩
  have hread : ∀ g agents, r'.generation = some g ∧ r'.agents = agents ↔
      r.generation = some g ∧ r.agents = agents := fun g agents => by
    rw [h.newest, h'.newest]
    simp only [hdescribes]
  have hgeneration : r'.generation = r.generation := Option.ext fun g =>
    ⟨fun hg => ((hread g _).mp ⟨hg, rfl⟩).1, fun hg => ((hread g _).mpr ⟨hg, rfl⟩).1⟩
  have hagents : r'.agents = r.agents := by
    cases hg : r.generation with
    | none => rw [h.otherwise hg, h'.otherwise (hgeneration.trans hg)]
    | some g => exact ((hread g _).mpr ⟨hg, rfl⟩).2
  have hnext : r'.nextGeneration = r.nextGeneration := by
    have hnext' := h'.next
    rw [numbers_of_perm hperm] at hnext'
    rcases h.next with ⟨hempty, hzero⟩ | ⟨top, htop, hsucc⟩
    · rcases hnext' with ⟨-, hzero'⟩ | ⟨top', htop', -⟩
      · rw [hzero, hzero']
      · exact absurd htop'.1 (hempty ▸ Set.notMem_empty _)
    · rcases hnext' with ⟨hempty, -⟩ | ⟨top', htop', hsucc'⟩
      · exact absurd htop.1 (hempty ▸ Set.notMem_empty _)
      · rw [hsucc, hsucc', htop'.unique htop]
  cases r
  cases r'
  simp_all

/-- Whatever chunks a store lists, and in whatever order, the greatest whole snapshot is read back. Only a
listing that fails makes it fail. -/
theorem restore_selects_newest (codec : Codec) (cs : List Chunk) :
    Selects codec cs (ofChunks codec cs) ∧
      (∀ cs', cs'.Perm cs → (ofChunks codec cs').names.Perm (ofChunks codec cs).names ∧
        ofChunks codec cs' = { ofChunks codec cs with names := (ofChunks codec cs').names }) ∧
      ∀ (σ : Type) [ChunkStore σ] (store : σ) (ns : String),
        (ChunkStore.list store ns = .ok cs → restore store ns codec = .ok (ofChunks codec cs)) ∧
          ∀ e, restore store ns codec = .error e ↔ ChunkStore.list store ns = .error e := by
  refine ⟨selects_ofChunks codec cs, fun cs' hperm => ⟨hperm.map _, ?_⟩, fun σ _ store ns => ⟨fun hlist => ?_, ?_⟩⟩
  · exact (selects_ofChunks codec cs).eq_of_perm (selects_ofChunks codec cs') hperm
  · exact restore_eq_ok.mpr ⟨cs, hlist, rfl⟩
  · intro e
    unfold restore
    cases ChunkStore.list store ns <;> simp [Except.map]

/-- Generation 7 has lost a chunk, generation 5 cannot be read, and the chunks of generation 4, whose labels are
written in two ways, are listed the wrong way round. -/
theorem restore_selects_newest_mixed :
    let chunk (name generation total : String) (index : UInt64) (data : Bytes) : Chunk :=
      ⟨"fleet", name, .ofList [("summary", "true"), ("identifier", generation), ("maxNum", total)], data, index⟩
    let cs := [chunk "a" "7" "2" 0 [123], chunk "b" "+4" "02" 1 [125], chunk "c" "5" "1" 0 [123],
      chunk "d" "004" "2" 0 [123], ⟨"fleet", "notes", ∅, [1], 9⟩]
    Describes .none cs 4 ∅ ∧ (∀ g agents, Describes .none cs g agents → g ≤ 4) ∧
      (ofChunks .none cs.reverse).generation = some 4 ∧ (ofChunks .none cs.reverse).nextGeneration = 8 := by
  intro chunk cs
  obtain ⟨hselects, hperm, -⟩ := restore_selects_newest .none cs
  have hwhole : Describes .none cs 4 ∅ :=
    ⟨[chunk "d" "004" "2" 0 [123], chunk "b" "+4" "02" 1 [125]], by decide +kernel, by decide, by decide, [123, 125],
      rfl, by decide +kernel⟩
  have hparts : cs.filterMap Chunk.partOf? = [7, 4, 5, 4] := by decide +kernel
  have hnumbers : ∀ g, g ∈ numbers cs ↔ g ∈ [7, 4, 5, 4] := fun g => by
    rw [← hparts, List.mem_filterMap]
    simp only [partOf?_eq_some]
    rfl
  have hgreatest : ∀ g agents, Describes .none cs g agents → g ≤ 4 := by
    intro g agents h
    have hg := (hnumbers g).mp (mem_numbers.mpr h.mem_generations)
    obtain ⟨parts, hchunks, -, htotals, data, hdata, hdecode⟩ := h
    simp only [List.mem_cons, List.not_mem_nil, or_false] at hg
    rcases hg with rfl | rfl | rfl | rfl
    · have htorn : (cs.filter fun c => c.isSummary ∧ c.generation? = some 7) = [chunk "a" "7" "2" 0 [123]] := by
        decide +kernel
      rw [htorn, List.perm_singleton] at hchunks
      subst hchunks
      exact absurd (htotals _ List.mem_cons_self) (by decide)
    · exact Nat.le_refl 4
    · have hgarbled : (cs.filter fun c => c.isSummary ∧ c.generation? = some 5) = [chunk "c" "5" "1" 0 [123]] := by
        decide +kernel
      rw [hgarbled, List.perm_singleton] at hchunks
      subst hchunks
      cases hdata
      have hnone : AgentMap.decode? [123] = none := by decide +kernel
      cases hnone.symm.trans hdecode
    · exact Nat.le_refl 4
  have hreverse := (hperm cs.reverse cs.reverse_perm).2
  rw [hreverse]
  refine ⟨hwhole, hgreatest, ((hselects.newest 4 ∅).mpr ⟨hwhole, hgreatest⟩).1, ?_⟩
  have htop : IsGreatest (numbers cs) 7 := ⟨(hnumbers 7).mpr (by decide), fun g hg => by
    have hg := (hnumbers g).mp hg
    simp only [List.mem_cons, List.not_mem_nil, or_false] at hg
    omega⟩
  rcases hselects.next with ⟨hempty, -⟩ | ⟨top, htop', hnext⟩
  · exact absurd htop.1 (hempty ▸ Set.notMem_empty 7)
  · exact hnext.trans (congrArg (· + 1) (htop'.unique htop))

end EdgeFleet.Restored
