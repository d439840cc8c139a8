import EdgeFleet.KeyMap.Lemmas
import EdgeFleet.Proofs.Text.Numerals
import EdgeFleet.Snapshot.Replacement
import EdgeFleet.Snapshot.Restore
import Mathlib.Algebra.Order.Floor.Div
import Mathlib.Data.List.Nodup

/-! # The chunks of a generation

The pieces of the data of a generation make up the data. The chunk of a piece tells its generation,
its place and how many there are, and its name belongs to no other generation and no other place.
-/

namespace EdgeFleet

/-! ## Pieces -/

theorem flatten_splitChunks (max : Nat) (data : Bytes) : (splitChunks max data).flatten = data := by
  induction data using splitChunks.induct max with
  | case1 => rw [splitChunks, dif_pos rfl]; rfl
  | case2 data h ih => rw [splitChunks, dif_neg h, List.flatten_cons, ih, List.take_append_drop]

theorem splitChunks_eq_nil_iff {max : Nat} {data : Bytes} : splitChunks max data = [] ↔ data = [] := by
  rw [splitChunks]
  split <;> simp [*]

theorem length_splitChunks_le (max : Nat) (data : Bytes) : (splitChunks max data).length ≤ data.length := by
  induction data using splitChunks.induct max with
  | case1 => rw [splitChunks, dif_pos rfl]; exact Nat.le_refl _
  | case2 data h ih =>
      have hpos := List.length_pos_iff.mpr h
      rw [List.length_drop] at ih
      rw [splitChunks, dif_neg h, List.length_cons]
      omega

/-- There are as many pieces as it takes to hold the data. -/
theorem length_splitChunks (size : Nat) (data : Bytes) :
    (splitChunks size data).length = (data.length + (max 1 size - 1)) / max 1 size := by
  have hsize : size - 1 + 1 = max 1 size := by omega
  induction data using splitChunks.induct size with
  | case1 =>
      rw [splitChunks, dif_pos rfl, List.length_nil, List.length_nil, Nat.div_eq_of_lt (by omega)]
  | case2 data h ih =>
      have hpos := List.length_pos_iff.mpr h
      rw [splitChunks, dif_neg h, List.length_cons, ih, List.length_drop, hsize,
        Nat.div_eq_sub_div (by omega) (by omega : max 1 size ≤ data.length + (max 1 size - 1))]
      by_cases hlast : data.length < max 1 size
      · rw [Nat.div_eq_of_lt (by omega), Nat.div_eq_of_lt (by omega)]
      · congr 2
        omega

/-- Pieces of `size` octets, the last one of what remains, that make up the data. -/
structure IsCut (size : Nat) (data : Bytes) (pieces : List Bytes) : Prop where
  flatten : pieces.flatten = data
  ne_nil : ∀ piece ∈ pieces, piece ≠ []
  full : ∀ piece ∈ pieces.dropLast, piece.length = size
  last : ∀ piece ∈ pieces.getLast?, piece.length ≤ size

namespace IsCut

variable {size : Nat} {data piece : Bytes} {pieces : List Bytes}

theorem nil : IsCut size [] [] := by
  constructor <;> simp

theorem singleton (hne : piece ≠ []) (hlength : piece.length ≤ size) : IsCut size piece [piece] := by
  constructor <;> simp [hne, hlength]

theorem cons (hlength : piece.length = size) (hne : piece ≠ []) (h : IsCut size data pieces) :
    IsCut size (piece ++ data) (piece :: pieces) where
  flatten := by rw [List.flatten_cons, h.flatten]
  ne_nil := List.forall_mem_cons.mpr ⟨hne, h.ne_nil⟩
  full := by
    cases pieces with
    | nil => simp
    | cons next pieces => exact List.forall_mem_cons.mpr ⟨hlength, h.full⟩
  last := by
    cases pieces with
    | nil => simp [hlength]
    | cons next pieces => simpa using h.last

/-- There is one way to cut the data. -/
theorem eq_splitChunks (h : IsCut (max 1 size) data pieces) : pieces = splitChunks size data := by
  have hsize : size - 1 + 1 = max 1 size := by omega
  induction pieces generalizing data with
  | nil =>
      obtain rfl : [] = data := h.flatten
      rw [splitChunks, dif_pos rfl]
  | cons piece pieces ih =>
      have hpiece : piece ≠ [] := h.ne_nil piece (by simp)
      have hdata : piece ++ pieces.flatten = data := h.flatten
      have hne : data ≠ [] := by simp [← hdata, hpiece]
      rw [splitChunks, dif_neg hne, hsize]
      cases pieces with
      | nil =>
          obtain rfl : piece = data := by simpa using hdata
          have hlast : piece.length ≤ max 1 size := h.last piece rfl
          rw [List.take_of_length_le hlast, List.drop_eq_nil_of_le hlast, splitChunks, dif_pos rfl]
      | cons next pieces =>
          have hfull : piece.length = max 1 size := h.full piece (by simp)
          have hrest : IsCut (max 1 size) (next :: pieces).flatten (next :: pieces) :=
            ⟨rfl, fun p hp => h.ne_nil p (List.mem_cons_of_mem _ hp),
              fun p hp => h.full p (List.mem_cons_of_mem _ hp), fun p hp => h.last p (by simpa using hp)⟩
          rw [← hdata, ← hfull, List.take_left, List.drop_left, ← ih hrest]

end IsCut

theorem isCut_splitChunks (size : Nat) (data : Bytes) : IsCut (max 1 size) data (splitChunks size data) := by
  have hsize : size - 1 + 1 = max 1 size := by omega
  induction data using splitChunks.induct size with
  | case1 =>
      rw [splitChunks, dif_pos rfl]
      exact .nil
  | case2 data h ih =>
      rw [splitChunks, dif_neg h]
      rw [hsize] at ih ⊢
      by_cases hlast : data.length ≤ max 1 size
      · rw [List.take_of_length_le hlast, List.drop_eq_nil_of_le hlast, splitChunks, dif_pos rfl]
        exact .singleton h hlast
      · have hfull : (data.take (max 1 size)).length = max 1 size := List.length_take_of_le (by omega)
        have hne : data.take (max 1 size) ≠ [] := List.ne_nil_of_length_pos (by omega)
        have hcut := ih.cons hfull hne
        rwa [List.take_append_drop] at hcut

namespace Chunk

/-! ## One chunk -/

theorem nameOf_injective {g g' i i' : Nat} (h : nameOf g i = nameOf g' i') : g = g' ∧ i = i' := by
  have hchars : Decimal.digits g ++ '-' :: Decimal.digits i = Decimal.digits g' ++ '-' :: Decimal.digits i' := by
    have := congrArg String.toList h
    simpa [nameOf, Decimal.render] using this
  -- No digit is a hyphen, so the first hyphen ends the generation in both.
  have hnot : ∀ n, '-' ∉ Decimal.digits n := fun n hmem =>
    absurd (Decimal.isDigit_of_mem_digits hmem) (by decide)
  obtain ⟨hg, -, hi⟩ := (List.append_cons_inj_of_notMem (hnot g) (hnot i)).mp hchars
  exact ⟨Decimal.render_injective (congrArg String.ofList hg),
    Decimal.render_injective (congrArg String.ofList hi)⟩

variable {ns : String} {g i n : Nat} {data : Bytes}

theorem label_make (label : String) : (make ns g i n data).labels.get? label =
    if label = "maxNum" then some (Decimal.render n)
    else if label = "summary" then some "true"
    else if label = "identifier" then some (Decimal.render g)
    else none := by
  simp only [make, KeyMap.ofList, List.foldl_cons, List.foldl_nil, KeyMap.get?_insert, KeyMap.get?_empty]

theorem isSummary_make : (make ns g i n data).isSummary = true := by
  simp [isSummary, label_make]

theorem generation?_make : (make ns g i n data).generation? = if g < UInt64.size then some g else none := by
  simp [generation?, numericLabel?, label_make, Decimal.parseBelow?_render]

theorem partOf?_make : (make ns g i n data).partOf? = if g < UInt64.size then some g else none := by
  rw [partOf?, isSummary_make, generation?_make]
  rfl

theorem total?_make : (make ns g i n data).total? = if n < UInt64.size then some n else none := by
  simp [total?, numericLabel?, label_make, Decimal.parseBelow?_render]

theorem index_make (h : i < UInt64.size) : (make ns g i n data).index.toNat = i := by
  rw [make, Nat.toUInt64, UInt64.toNat_ofNat']
  exact Nat.mod_eq_of_lt h

end Chunk

/-- Data is cut into as many pieces as it takes, and in one way. A chunk tells its generation and how many
chunks that has, and no chunk of another generation or at another place has its name. -/
theorem pieces_and_their_chunks :
    (∀ (size : Nat) (data : Bytes), (splitChunks size data).length = data.length ⌈/⌉ max 1 size ∧
      ∀ pieces, pieces = splitChunks size data ↔ IsCut (max 1 size) data pieces) ∧
    (∀ (ns : String) (g i n : UInt64) (piece : Bytes),
      (Chunk.make ns g.toNat i.toNat n.toNat piece).isSummary = true ∧
      (Chunk.make ns g.toNat i.toNat n.toNat piece).generation? = some g.toNat ∧
      (Chunk.make ns g.toNat i.toNat n.toNat piece).total? = some n.toNat) ∧
    ∀ (ns ns' : String) (g g' i i' n n' : UInt64) (piece piece' : Bytes),
      (Chunk.make ns g.toNat i.toNat n.toNat piece).name =
        (Chunk.make ns' g'.toNat i'.toNat n'.toNat piece').name ↔ g = g' ∧ i = i' := by
  refine ⟨fun size data => ⟨?_, fun pieces => ⟨?_, IsCut.eq_splitChunks⟩⟩, fun ns g i n piece => ⟨?_, ?_, ?_⟩,
    fun ns ns' g g' i i' n n' piece piece' => ⟨fun h => ?_, ?_⟩⟩
  · rw [length_splitChunks, Nat.ceilDiv_eq_add_pred_div, Nat.add_sub_assoc (Nat.le_max_left 1 size)]
  · rintro rfl
    exact isCut_splitChunks size data
  · exact Chunk.isSummary_make
  · rw [Chunk.generation?_make, if_pos g.toNat_lt]
  · rw [Chunk.total?_make, if_pos n.toNat_lt]
  · obtain ⟨hg, hi⟩ := Chunk.nameOf_injective h
    exact ⟨UInt64.toNat_inj.mp hg, UInt64.toNat_inj.mp hi⟩
  · rintro ⟨rfl, rfl⟩
    rfl

/-! ## All chunks of a generation -/

section

variable {ns : String} {g max : Nat} {data : Bytes}

theorem length_chunksOf : (chunksOf ns g max data).length = (splitChunks max data).length := by
  simp [chunksOf]

theorem getElem?_chunksOf (i : Nat) : (chunksOf ns g max data)[i]? =
    (splitChunks max data)[i]?.map (Chunk.make ns g i (splitChunks max data).length) := by
  rw [chunksOf, List.getElem?_map, List.getElem?_zipIdx, Option.map_map, Nat.zero_add]
  rfl

theorem mem_chunksOf {c : Chunk} : c ∈ chunksOf ns g max data ↔
    ∃ i piece, (splitChunks max data)[i]? = some piece ∧
      c = .make ns g i (splitChunks max data).length piece := by
  rw [List.mem_iff_getElem?]
  constructor
  · rintro ⟨i, hi⟩
    rw [getElem?_chunksOf] at hi
    obtain ⟨piece, hpiece, rfl⟩ := Option.map_eq_some_iff.mp hi
    exact ⟨i, piece, hpiece, rfl⟩
  · rintro ⟨i, piece, hpiece, rfl⟩
    exact ⟨i, by rw [getElem?_chunksOf, hpiece, Option.map_some]⟩

theorem chunksOf_eq_nil_iff : chunksOf ns g max data = [] ↔ data = [] := by
  rw [← List.length_eq_zero_iff, length_chunksOf, List.length_eq_zero_iff, splitChunks_eq_nil_iff]

theorem partOf?_of_mem_chunksOf {c : Chunk} (h : c ∈ chunksOf ns g max data) :
    c.partOf? = if g < UInt64.size then some g else none := by
  obtain ⟨i, piece, -, rfl⟩ := mem_chunksOf.mp h
  exact Chunk.partOf?_make ..

theorem flatMap_data_chunksOf : (chunksOf ns g max data).flatMap (·.data) = data := by
  have hdata : (chunksOf ns g max data).map (·.data) = splitChunks max data := by
    apply List.ext_getElem?
    intro i
    rw [List.getElem?_map, getElem?_chunksOf, Option.map_map]
    cases (splitChunks max data)[i]? <;> rfl
  rw [List.flatMap_def, hdata, flatten_splitChunks]

theorem names_chunksOf : (chunksOf ns g max data).map (·.name) =
    (List.range (splitChunks max data).length).map (Chunk.nameOf g) := by
  apply List.ext_getElem?
  intro i
  rw [List.getElem?_map, getElem?_chunksOf, List.getElem?_map, Option.map_map]
  by_cases hi : i < (splitChunks max data).length
  · rw [List.getElem?_eq_getElem hi, List.getElem?_range hi]
    rfl
  · rw [List.getElem?_eq_none (by omega), List.getElem?_eq_none (by simp; omega)]
    rfl

theorem nodup_names_chunksOf : ((chunksOf ns g max data).map (·.name)).Nodup := by
  rw [names_chunksOf]
  exact List.nodup_range.map fun i j h => (Chunk.nameOf_injective h).2

end

/-! ## Complete generations -/

namespace Restored

theorem mem_chunksIn {cs : List Chunk} {g : Nat} {c : Chunk} :
    c ∈ chunksIn cs g ↔ c ∈ cs ∧ c.partOf? = some g := by
  simp [chunksIn]

theorem mem_generations {cs : List Chunk} {g : Nat} :
    g ∈ generations cs ↔ ∃ c ∈ cs, c.partOf? = some g := by
  simp [generations, List.mem_eraseDups]

theorem isComplete_iff {cs : List Chunk} : isComplete cs = true ↔
    cs ≠ [] ∧ ∀ (i : Nat) (c : Chunk), cs[i]? = some c → c.index.toNat = i ∧ c.total? = some cs.length := by
  have hall : (cs.zipIdx.all fun c => decide (c.1.index.toNat = c.2 ∧ c.1.total? = some cs.length)) = true ↔
      ∀ (i : Nat) (c : Chunk), cs[i]? = some c → c.index.toNat = i ∧ c.total? = some cs.length := by
    rw [List.all_eq_true]
    constructor
    · intro h i c hc
      simpa using h (c, i) (List.mk_mem_zipIdx_iff_getElem?.mpr hc)
    · rintro h ⟨c, i⟩ hc
      simpa using h i c (List.mk_mem_zipIdx_iff_getElem?.mp hc)
  rw [isComplete, decide_eq_true_eq, hall]
  constructor
  · rintro ⟨hhead, h⟩
    refine ⟨?_, h⟩
    rintro rfl
    simp at hhead
  · rintro ⟨hne, h⟩
    refine ⟨?_, h⟩
    cases cs with
    | nil => exact absurd rfl hne
    | cons c cs => exact (h 0 c rfl).2

/-- A complete run of chunks of one generation is all of them, in their order. -/
theorem eq_chunksOf_of_isComplete {cs : List Chunk} {ns : String} {g max : Nat} {data : Bytes}
    (hmem : ∀ c ∈ cs, c ∈ chunksOf ns g max data) (h : isComplete cs = true) :
    cs = chunksOf ns g max data := by
  obtain ⟨hne, hcs⟩ := isComplete_iff.mp h
  -- Each chunk stands where its index says, and there are as many as each of them tells.
  have hplace : ∀ (i : Nat) (c : Chunk), cs[i]? = some c →
      (chunksOf ns g max data)[i]? = some c ∧ cs.length = (chunksOf ns g max data).length := by
    intro i c hc
    obtain ⟨hindex, htotal⟩ := hcs i c hc
    obtain ⟨k, piece, hpiece, rfl⟩ := mem_chunksOf.mp (hmem c (List.mem_of_getElem? hc))
    have hk : k < (splitChunks max data).length := (List.getElem?_eq_some_iff.mp hpiece).1
    rw [Chunk.total?_make] at htotal
    split at htotal
    · next hsize =>
      rw [Chunk.index_make (by omega)] at hindex
      subst hindex
      refine ⟨by rw [getElem?_chunksOf, hpiece, Option.map_some], ?_⟩
      rw [length_chunksOf]
      exact (Option.some.inj htotal).symm
    · cases htotal
  have hlength : cs.length = (chunksOf ns g max data).length := by
    cases cs with
    | nil => exact absurd rfl hne
    | cons c cs => exact (hplace 0 c rfl).2
  apply List.ext_getElem? fun i => ?_
  cases hi : cs[i]? with
  | none =>
      rw [List.getElem?_eq_none_iff] at hi
      rw [List.getElem?_eq_none (by omega)]
  | some c => exact (hplace i c hi).1.symm

theorem isComplete_chunksOf {ns : String} {g max : Nat} {data : Bytes} (hdata : data ≠ [])
    (hlength : data.length < UInt64.size) : isComplete (chunksOf ns g max data) = true := by
  have hsize : (splitChunks max data).length < UInt64.size :=
    Nat.lt_of_le_of_lt (length_splitChunks_le max data) hlength
  rw [isComplete_iff]
  refine ⟨fun hnil => hdata (chunksOf_eq_nil_iff.mp hnil), fun i c hc => ?_⟩
  rw [getElem?_chunksOf] at hc
  obtain ⟨piece, hpiece, rfl⟩ := Option.map_eq_some_iff.mp hc
  have hi : i < (splitChunks max data).length := (List.getElem?_eq_some_iff.mp hpiece).1
  rw [Chunk.index_make (by omega), Chunk.total?_make, if_pos hsize, length_chunksOf]
  exact ⟨rfl, rfl⟩

theorem pairwise_index_chunksOf (ns : String) (g max : Nat) {data : Bytes}
    (hlength : data.length < UInt64.size) :
    (chunksOf ns g max data).Pairwise fun a b => a.index < b.index := by
  have hsize : (splitChunks max data).length < UInt64.size :=
    Nat.lt_of_le_of_lt (length_splitChunks_le max data) hlength
  rw [List.pairwise_iff_getElem]
  intro i j hi hj hij
  have hindex : ∀ k (hk : k < (chunksOf ns g max data).length),
      (chunksOf ns g max data)[k].index.toNat = k := by
    intro k hk
    have hget := List.getElem?_eq_getElem hk
    rw [getElem?_chunksOf] at hget
    obtain ⟨piece, hpiece, hmake⟩ := Option.map_eq_some_iff.mp hget
    rw [← hmake, Chunk.index_make]
    rw [length_chunksOf] at hk
    omega
  rw [UInt64.lt_iff_toNat_lt, hindex i hi, hindex j hj]
  exact hij

/-- The chunks of a generation are put in the order of their indices, whatever the order of the listing. -/
theorem chunksIn_eq_of_pairwise {cs parts : List Chunk} {g : Nat}
    (hperm : (cs.filter fun c => c.partOf? = some g).Perm parts)
    (hstrict : parts.Pairwise fun a b => a.index < b.index) : chunksIn cs g = parts := by
  have hchunks : (chunksIn cs g).Perm parts := (List.mergeSort_perm _ _).trans hperm
  have hsorted : (chunksIn cs g).Pairwise fun a b => decide (a.index ≤ b.index) = true :=
    List.pairwise_mergeSort
      (fun a b c hab hbc => by
        rw [decide_eq_true_eq] at hab hbc ⊢
        exact UInt64.le_trans hab hbc)
      (fun a b => by simpa using UInt64.le_total a.index b.index) _
  have hnodup : (parts.map (·.index)).Nodup := List.pairwise_map.mpr (hstrict.imp UInt64.ne_of_lt)
  refine hchunks.eq_of_pairwise ?_ hsorted (hstrict.imp fun hab => by simpa using UInt64.le_of_lt hab)
  intro a b ha hb hab hba
  rw [decide_eq_true_eq] at hab hba
  exact List.inj_on_of_nodup_map hnodup (hchunks.subset ha) hb (UInt64.le_antisymm hab hba)

/-- Neither the order in which a store lists the chunks matters, nor what else it lists. -/
theorem chunksIn_of_perm {cs : List Chunk} {ns : String} {g max : Nat} {data : Bytes}
    (hlength : data.length < UInt64.size)
    (h : (cs.filter fun c => c.partOf? = some g).Perm (chunksOf ns g max data)) :
    chunksIn cs g = chunksOf ns g max data :=
  chunksIn_eq_of_pairwise h (pairwise_index_chunksOf ns g max hlength)

end Restored

end EdgeFleet
