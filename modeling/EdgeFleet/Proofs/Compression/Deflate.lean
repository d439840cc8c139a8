import EdgeFleet.Compression.Gzip
import EdgeFleet.Proofs.Compression.Bits
import EdgeFleet.Proofs.Compression.Lz77
import EdgeFleet.Proofs.Text.Octets
import Mathlib.Data.List.Nodup

/-! # Deflated data is restored

A block in the fixed code is read token by token, and what the tokens expand to is the data. Octets
behind the stream are left alone.
-/

namespace EdgeFleet

/-! ## Bands -/

namespace Band

/-- Each band begins no later than where the one before it ends, and the last one goes up to
`bound`. -/
def Tiled (bands : List Band) (bound : Nat) : Prop :=
  ∀ k < bands.length, ((bands.map base).getD (k + 1) bound) ≤
    (bands.getD k ⟨0, 0⟩).base + 2 ^ (bands.getD k ⟨0, 0⟩).extra

instance (bands : List Band) (bound : Nat) : Decidable (Tiled bands bound) :=
  inferInstanceAs (Decidable (∀ k < bands.length, _))

theorem locate?_spec {bands : List Band} {bound n : Nat} (h : Tiled bands bound) (hn : n < bound)
    {first : Band} (hfirst : bands[0]? = some first) (hbase : first.base ≤ n) :
    ∃ k band, locate? bands n = some (k, band) ∧ bands[k]? = some band ∧ band.base ≤ n ∧
      n - band.base < 2 ^ band.extra := by
  have hsome : (bands.zipIdx.reverse.find? fun e => decide (e.1.base ≤ n)).isSome := by
    rw [List.find?_isSome]
    refine ⟨(first, 0), ?_, by simpa using hbase⟩
    rw [List.mem_reverse, List.mk_mem_zipIdx_iff_getElem?]
    exact hfirst
  obtain ⟨⟨band, k⟩, hfind⟩ := Option.isSome_iff_exists.mp hsome
  obtain ⟨hle, after, before, hsplit, hafter⟩ := List.find?_eq_some_iff_append.mp hfind
  have hbands : bands.zipIdx = before.reverse ++ (band, k) :: after.reverse := by
    rw [← List.reverse_reverse bands.zipIdx, hsplit]
    simp
  have hget : ∀ j : Nat, (before.reverse ++ (band, k) :: after.reverse)[j]? = bands[j]?.map (·, j) := by
    intro j
    rw [← hbands, List.getElem?_zipIdx, Nat.zero_add]
  have hk : bands[k]? = some band ∧ k = before.length := by
    have hhere := hget before.length
    rw [List.getElem?_append_right (by simp), List.length_reverse, Nat.sub_self,
      List.getElem?_cons_zero] at hhere
    obtain ⟨b, hb, heq⟩ := Option.map_eq_some_iff.mp hhere.symm
    obtain ⟨rfl, rfl⟩ := Prod.mk.inj heq
    exact ⟨hb, rfl⟩
  -- The band after this one, if there is any, begins above `n`.
  have hnext : n < (bands.map base).getD (k + 1) bound := by
    rw [List.getD_eq_getElem?_getD, List.getElem?_map]
    cases hb : bands[k + 1]? with
    | none => exact hn
    | some b =>
        have hthere := hget (k + 1)
        rw [hb, Option.map_some] at hthere
        have hmem : (b, k + 1) ∈ after := by
          rw [List.getElem?_append_right (by simp [hk.2]), List.length_reverse, ← hk.2,
            Nat.add_sub_cancel_left, List.getElem?_cons_succ] at hthere
          exact List.mem_reverse.mp (List.mem_of_getElem? hthere)
        simpa using hafter _ hmem
  have hlt : k < bands.length := (List.getElem?_eq_some_iff.mp hk.1).1
  refine ⟨k, band, ?_, hk.1, by simpa using hle, ?_⟩
  · rw [locate?, hfind]
    rfl
  · have hsize := h k hlt
    have hband : bands.getD k ⟨0, 0⟩ = band := by rw [List.getD_eq_getElem?_getD, hk.1, Option.getD_some]
    rw [hband] at hsize
    have : band.base ≤ n := by simpa using hle
    omega

end Band

namespace Deflate

/-! ## Code words -/

/-- The table holds the word of every symbol that has one. -/
theorem getD_wordTable {tree : CodeTree} (hnodup : (tree.words.map (·.1)).Nodup) {s : Nat} {w : List Bool}
    (hs : s < 288) (h : (s, w) ∈ tree.words) : (wordTable tree).getD s [] = w := by
  have hkept : ∀ (es : List (Nat × List Bool)) (t : Array (List Bool)), s ∉ es.map (·.1) →
      (es.foldl (fun t e => t.setIfInBounds e.1 e.2) t).getD s [] = t.getD s [] := by
    intro es
    induction es with
    | nil => intro t _; rfl
    | cons e es ih =>
        intro t hnot
        rw [List.map_cons, List.mem_cons, not_or] at hnot
        rw [List.foldl_cons, ih _ hnot.2]
        simp [Array.getD_eq_getD_getElem?, Array.getElem?_setIfInBounds_ne (Ne.symm hnot.1)]
  have hset : ∀ (es : List (Nat × List Bool)) (t : Array (List Bool)), (es.map (·.1)).Nodup →
      (s, w) ∈ es → s < t.size →
      (es.foldl (fun t e => t.setIfInBounds e.1 e.2) t).getD s [] = w := by
    intro es
    induction es with
    | nil => intro t _ hmem; cases hmem
    | cons e es ih =>
        intro t hnodup hmem hsize
        obtain ⟨hfresh, hnodup⟩ := List.nodup_cons.mp hnodup
        rw [List.foldl_cons]
        rcases List.mem_cons.mp hmem with rfl | hmem
        · rw [hkept es _ hfresh]
          simp [Array.getD_eq_getD_getElem?, hsize]
        · exact ih _ hnodup hmem (by simpa using hsize)
  exact hset _ _ hnodup h (by simpa using hs)

theorem symbols_literals : fixedCodes.literals.words.map (·.1) =
    List.range' 256 24 ++ List.range' 0 144 ++ List.range' 280 8 ++ List.range' 144 112 := by
  decide +kernel

theorem symbols_distances : fixedCodes.distances.words.map (·.1) = List.range 32 := by
  decide +kernel

theorem nodup_symbols_literals : (fixedCodes.literals.words.map (·.1)).Nodup := by
  rw [symbols_literals]
  simp only [List.nodup_append, List.mem_append, List.mem_range'_1]
  refine ⟨⟨⟨List.nodup_range', List.nodup_range', ?_⟩, List.nodup_range', ?_⟩, List.nodup_range', ?_⟩ <;>
    omega

theorem literalWord_mem {s : Nat} (h : s < 286) :
    (s, literalWords.getD s []) ∈ fixedCodes.literals.words := by
  have hs : s ∈ fixedCodes.literals.words.map (·.1) := by
    rw [symbols_literals]
    simp only [List.mem_append, List.mem_range'_1]
    omega
  obtain ⟨⟨s', w⟩, hmem, rfl⟩ := List.mem_map.mp hs
  rw [literalWords, getD_wordTable nodup_symbols_literals (by omega) hmem]
  exact hmem

theorem distanceWord_mem {s : Nat} (h : s < 30) :
    (s, distanceWords.getD s []) ∈ fixedCodes.distances.words := by
  have hs : s ∈ fixedCodes.distances.words.map (·.1) := by
    rw [symbols_distances, List.mem_range]
    omega
  have hnodup : (fixedCodes.distances.words.map (·.1)).Nodup := by
    rw [symbols_distances]
    exact List.nodup_range
  obtain ⟨⟨s', w⟩, hmem, rfl⟩ := List.mem_map.mp hs
  rw [distanceWords, getD_wordTable hnodup (by omega) hmem]
  exact hmem

theorem ne_nil_of_mem_words : ∀ e ∈ fixedCodes.literals.words, e.2 ≠ [] := by decide +kernel

theorem literalWord_ne_nil {s : Nat} (h : s < 286) : literalWords.getD s [] ≠ [] := by
  have hmem := literalWord_mem h
  generalize literalWords.getD s [] = word at hmem
  exact ne_nil_of_mem_words (s, word) hmem

/-! ## Tokens -/

open BitReader (Spells next? nat?)

/-- A number in a band is read as the symbol of the band and the place in it. -/
theorem read_bandBits {tree : CodeTree} {words : Array (List Bool)} {bands : List Band} {first bound n : Nat}
    (hwords : ∀ k < bands.length, (first + k, words.getD (first + k) []) ∈ tree.words)
    (htiled : Band.Tiled bands bound) (hn : n < bound) {band : Band} (hband : bands[0]? = some band)
    (hbase : band.base ≤ n) {r : BitReader} {bs : List Bool}
    (hr : r.Spells (bandBits words bands first n ++ bs)) :
    ∃ k r₁ r₂, k < bands.length ∧ tree.decode? next? r = some (first + k, r₁) ∧
      bandValue? bands k r₁ = some (n, r₂) ∧ r₂.Spells bs := by
  obtain ⟨k, band, hlocate, hk, hle, hoffset⟩ := Band.locate?_spec htiled hn hband hbase
  have hlt : k < bands.length := (List.getElem?_eq_some_iff.mp hk).1
  rw [bandBits, hlocate, List.append_assoc] at hr
  obtain ⟨r₁, hdecode, h₁⟩ := hr.decode (hwords k hlt)
  obtain ⟨r₂, hnat, h₂⟩ := h₁.nat hoffset
  refine ⟨k, r₁, r₂, hlt, hdecode, ?_, h₂⟩
  simp only [bandValue?, hk, hnat, Option.bind_eq_bind, Option.bind_some, Option.pure_def,
    Option.some.injEq, Prod.mk.injEq, and_true]
  omega

theorem tiled_lengthBands : Band.Tiled lengthBands 259 := by decide

theorem tiled_distanceBands : Band.Tiled distanceBands 32769 := by decide

theorem length_lengthBands : lengthBands.length = 29 := by decide

theorem length_distanceBands : distanceBands.length = 30 := by decide

/-- Reading the bits of a token appends what the token stands for. -/
theorem readSymbols?_token {t : Lz77.Token} (ht : t.Within maxCopy window) {r : BitReader} {bs : List Bool}
    (hr : r.Spells (tokenBits t ++ bs)) :
    ∃ r', r'.Spells bs ∧ ∀ fuel out, readSymbols? fixedCodes (fuel + 1) r out =
      readSymbols? fixedCodes fuel r' (t.append out) := by
  cases t with
  | literal b =>
      have hb : b.toNat < 256 := b.toNat_lt
      have hword := literalWord_mem (Nat.lt_of_lt_of_le hb (by decide))
      rw [tokenBits] at hr
      obtain ⟨r', hdecode, h'⟩ := hr.decode hword
      refine ⟨r', h', fun fuel out => ?_⟩
      have hbyte : b.toNat.toUInt8 = b := UInt8.ofNat_toNat
      simp only [readSymbols?, hdecode, Option.bind_eq_bind, Option.bind_some, endMark, if_pos hb, hbyte,
        Lz77.Token.append]
  | copy length distance =>
      obtain ⟨hleast, hmost, hnear, hfar⟩ := ht
      rw [tokenBits, List.append_assoc] at hr
      obtain ⟨k, r₁, r₂, hk, hdecode, hlength, h₂⟩ := read_bandBits
        (fun k hk => literalWord_mem (by rw [length_lengthBands] at hk; simp only [endMark]; omega))
        tiled_lengthBands (Nat.lt_succ_of_le hmost) rfl hleast hr
      obtain ⟨m, r₃, r₄, hm, hdecode', hdistance, h₄⟩ := read_bandBits
        (fun k hk => by
          rw [length_distanceBands] at hk
          exact distanceWord_mem (by omega))
        tiled_distanceBands (Nat.lt_succ_of_le hfar) rfl hnear h₂
      refine ⟨r₄, h₄, fun fuel out => ?_⟩
      have hsymbol : ¬endMark + 1 + k < endMark ∧ endMark + 1 + k ≠ endMark ∧
          endMark + 1 + k - endMark - 1 = k := by omega
      rw [Nat.zero_add] at hdecode'
      simp only [readSymbols?, hdecode, hsymbol, hlength, hdecode', hdistance, Option.bind_eq_bind,
        Option.bind_some, if_false, Lz77.Token.append]

theorem readSymbols?_tokens {ts : List Lz77.Token} (hts : ∀ t ∈ ts, t.Within maxCopy window)
    {r : BitReader} {bs : List Bool}
    (hr : r.Spells (ts.flatMap tokenBits ++ (literalWords.getD endMark [] ++ bs))) {fuel : Nat}
    (hfuel : ts.length < fuel) (out : Array UInt8) :
    ∃ r', r'.Spells bs ∧ readSymbols? fixedCodes fuel r out = some (r', Lz77.expand ts out) := by
  induction ts generalizing r fuel out with
  | nil =>
      obtain ⟨fuel, rfl⟩ := Nat.exists_eq_succ_of_ne_zero (Nat.ne_of_gt hfuel)
      have hword := literalWord_mem (show endMark < 286 by decide)
      rw [List.flatMap_nil, List.nil_append] at hr
      obtain ⟨r', hdecode, h'⟩ := hr.decode hword
      refine ⟨r', h', ?_⟩
      simp only [readSymbols?, hdecode, Option.bind_eq_bind, Option.bind_some, Nat.lt_irrefl, if_false,
        if_true, Lz77.expand, List.foldl_nil]
  | cons t ts ih =>
      obtain ⟨fuel, rfl⟩ := Nat.exists_eq_succ_of_ne_zero (Nat.ne_of_gt (Nat.zero_lt_of_lt hfuel))
      rw [List.flatMap_cons, List.append_assoc] at hr
      obtain ⟨r₁, h₁, hstep⟩ := readSymbols?_token (hts t List.mem_cons_self) hr
      obtain ⟨r', h', hrest⟩ := ih (fun t' ht => hts t' (List.mem_cons_of_mem _ ht)) h₁
        (Nat.lt_of_succ_lt_succ hfuel) (t.append out)
      exact ⟨r', h', by rw [hstep, hrest]; rfl⟩

theorem tokenBits_ne_nil {t : Lz77.Token} (ht : t.Within maxCopy window) : tokenBits t ≠ [] := by
  cases t with
  | literal b =>
      have hb : b.toNat < 256 := b.toNat_lt
      rw [tokenBits]
      exact literalWord_ne_nil (by omega)
  | copy length distance =>
      obtain ⟨k, band, hlocate, hk, -, -⟩ :=
        Band.locate?_spec tiled_lengthBands (Nat.lt_succ_of_le ht.2.1) rfl ht.1
      have hlt : k < lengthBands.length := (List.getElem?_eq_some_iff.mp hk).1
      rw [length_lengthBands] at hlt
      have hword := literalWord_ne_nil (show endMark + 1 + k < 286 by simp only [endMark]; omega)
      rw [tokenBits, bandBits, hlocate]
      intro hnil
      exact hword (List.append_eq_nil_iff.mp (List.append_eq_nil_iff.mp hnil).1).1

theorem length_le_flatMap_tokenBits {ts : List Lz77.Token} (hts : ∀ t ∈ ts, t.Within maxCopy window) :
    ts.length ≤ (ts.flatMap tokenBits).length := by
  induction ts with
  | nil => exact Nat.le_refl _
  | cons t ts ih =>
      have hhead := List.length_pos_iff.mpr (tokenBits_ne_nil (hts t List.mem_cons_self))
      have htail := ih fun t' ht => hts t' (List.mem_cons_of_mem _ ht)
      rw [List.length_cons, List.flatMap_cons, List.length_append]
      omega

/-! ## Streams -/

/-- A stream is read up to its end, and what follows it is handed back. -/
theorem decode?_encode (data tail : Bytes) : decode? (encode data ++ tail) = some (data, tail) := by
  have hwithin := Lz77.within_tokens maxCopy window data.toArray
  generalize hts : Lz77.tokens maxCopy window data.toArray = ts at hwithin
  have hexpand : (Lz77.expand ts #[]).toList = data := by
    rw [← hts, Lz77.expand_tokens]
  obtain ⟨zeros, hzeros, hpack⟩ := Bits.bits_pack (blockBits ts)
  have hbits : (encode data ++ tail).flatMap Bits.ofOctet = true :: (Bits.ofNat 2 1 ++
      (ts.flatMap tokenBits ++ (literalWords.getD endMark [] ++
        (List.replicate zeros false ++ tail.flatMap Bits.ofOctet)))) := by
    rw [List.flatMap_append, encode, hts, hpack, blockBits]
    simp only [List.append_assoc]
    rfl
  have hfuel : ts.length < 8 * (encode data ++ tail).length + 1 := by
    have hle := length_le_flatMap_tokenBits hwithin
    have htotal := congrArg List.length hbits
    rw [Bits.length_flatMap_ofOctet] at htotal
    simp only [List.length_cons, List.length_append] at htotal hle ⊢
    omega
  have hstart := BitReader.spells_ofBytes (encode data ++ tail)
  rw [hbits] at hstart
  obtain ⟨r₁, hfinal, h₁⟩ := hstart.next
  obtain ⟨r₂, hkind, h₂⟩ := h₁.nat (show 1 < 2 ^ 2 by decide)
  obtain ⟨r₃, h₃, hsymbols⟩ := readSymbols?_tokens hwithin h₂ hfuel #[]
  have hrest : r₃.align.rest = tail := h₃.align_rest (by rwa [List.length_replicate])
  have hblock : readBlock? (8 * (encode data ++ tail).length + 1) (.ofBytes (encode data ++ tail)) #[] =
      some (true, r₃, Lz77.expand ts #[]) := by
    simp only [readBlock?, hfinal, hkind, hsymbols, Option.bind_eq_bind, Option.bind_some,
      Option.pure_def]
  simp only [decode?, readBlocks?, hblock, Option.bind_eq_bind, Option.bind_some, if_true,
    Option.map_some, hexpand, hrest]

theorem encode_ne_nil (data : Bytes) : encode data ≠ [] := by
  simp [encode, blockBits, Bits.pack]

end Deflate

/-! ## Gzip -/

namespace Gzip

theorem length_trailer (data : Bytes) : (trailer data).length = 8 := by
  simp [trailer, length_littleEndian]

theorem skipHeader?_header (bs : Bytes) : skipHeader? (header ++ bs) = some bs := by
  have hcut : cut? 10 (header ++ bs) = some (header, bs) :=
    cut?_append (show header.length = 10 from rfl) bs
  simp only [skipHeader?, hcut, Option.bind_eq_bind, Option.bind_some]
  simp [header, guard, skipWhen]

/-- What follows the trailer is ignored. -/
theorem decode?_encode (data tail : Bytes) : decode? (encode data ++ tail) = some data := by
  have hcut : cut? 8 (trailer data ++ tail) = some (trailer data, tail) := cut?_append (length_trailer data) tail
  rw [decode?, encode, List.append_assoc, List.append_assoc, skipHeader?_header, Option.bind_eq_bind,
    Option.bind_some, Deflate.decode?_encode, Option.bind_eq_bind, Option.bind_some]
  simp [hcut, guard]

end Gzip

end EdgeFleet
