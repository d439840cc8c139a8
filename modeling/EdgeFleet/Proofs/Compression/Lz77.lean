import EdgeFleet.Compression.Lz77
import Mathlib.Data.List.TakeDrop
import Mathlib.Data.Option.Basic

/-! # Repetitions expand to the data

Whatever the search proposes, the tokens of the data expand to the data, and every copy keeps to the
given bounds.
-/

namespace EdgeFleet.Lz77

/-- A copy of at most `limit` octets from within the window. -/
def Token.Within (limit window : Nat) : Token → Prop
  | .literal _ => True
  | .copy length distance => 3 ≤ length ∧ length ≤ limit ∧ 1 ≤ distance ∧ distance ≤ window

theorem matchLength_le (data : Array UInt8) (i j limit : Nat) : matchLength data i j limit ≤ limit := by
  induction limit generalizing i j with
  | zero => exact Nat.le_refl _
  | succ limit ih =>
      rw [matchLength]
      split
      · exact Nat.succ_le_succ (ih (i + 1) (j + 1))
      · exact Nat.zero_le _

theorem of_lt_matchLength {data : Array UInt8} {i j n limit : Nat} (h : n < matchLength data i j limit) :
    i + n < data.size ∧ data[i + n]? = data[j + n]? := by
  induction limit generalizing i j n with
  | zero => simp [matchLength] at h
  | succ limit ih =>
      rw [matchLength] at h
      split at h
      · next hhere =>
        cases n with
        | zero => exact hhere
        | succ n =>
            have hnext := ih (Nat.lt_of_succ_lt_succ h)
            rwa [Nat.add_right_comm i 1 n, Nat.add_right_comm j 1 n] at hnext
      · simp at h

theorem repetition?_spec {least limit window : Nat} {data : Array UInt8} {i : Nat} {seen : Seen}
    {length distance : Nat} (h : repetition? least limit window data i seen = some (length, distance)) :
    ∃ j < i, distance = i - j ∧ distance ≤ window ∧ least ≤ length ∧
      length = matchLength data i j limit := by
  simp only [repetition?, Option.bind_eq_bind, Option.bind_eq_some_iff] at h
  obtain ⟨j, -, hcopy⟩ := h
  simp only [Option.guard_eq_some', Option.pure_def, Option.some.injEq, Prod.mk.injEq] at hcopy
  obtain ⟨-, hbounds, rfl, rfl⟩ := hcopy
  exact ⟨j, hbounds.1, rfl, hbounds.2.1, hbounds.2.2, rfl⟩

theorem tokensFrom_copy {limit window : Nat} {data : Array UInt8} {i : Nat} {seen : Seen}
    (h : i < data.size) {length distance : Nat}
    (hfound : repetition? 3 limit window data i seen = some (length + 1, distance)) :
    tokensFrom limit window data i seen = .copy (length + 1) distance ::
      tokensFrom limit window data (i + (length + 1)) (seen.insert (triple data i) i) := by
  rw [tokensFrom, dif_pos h]
  simp only [hfound]

theorem tokensFrom_literal {limit window : Nat} {data : Array UInt8} {i : Nat} {seen : Seen}
    (h : i < data.size)
    (hnone : ∀ length distance, repetition? 3 limit window data i seen ≠ some (length + 1, distance)) :
    tokensFrom limit window data i seen =
      .literal data[i] :: tokensFrom limit window data (i + 1) (seen.insert (triple data i) i) := by
  rw [tokensFrom, dif_pos h]
  cases hfound : repetition? 3 limit window data i seen with
  | none => rfl
  | some found =>
      obtain ⟨length, distance⟩ := found
      cases length with
      | zero => rfl
      | succ length => exact absurd hfound (hnone length distance)

theorem take_succ_of_lt {data : Array UInt8} {i : Nat} (h : i < data.size) :
    data.toList.take (i + 1) = data.toList.take i ++ [data[i]] := by
  rw [List.take_add_one, Array.getElem?_toList, Array.getElem?_eq_getElem h, Option.toList_some]

/-- A copy repeats what the data repeats. -/
theorem copy_of_matches {data : Array UInt8} {j distance n : Nat} (hdistance : 1 ≤ distance) {i : Nat}
    (hi : i = j + distance) (hmatch : ∀ k < n, i + k < data.size ∧ data[i + k]? = data[j + k]?)
    {out : Array UInt8} (hout : out.toList = data.toList.take i) :
    (copy distance n out).toList = data.toList.take (i + n) := by
  induction n generalizing i j out with
  | zero => exact hout
  | succ n ih =>
      obtain ⟨hlt, heq⟩ := hmatch 0 (Nat.succ_pos n)
      simp only [Nat.add_zero] at hlt heq
      have hsize : out.size = i := by
        rw [← Array.length_toList, hout, List.length_take, Array.length_toList]
        omega
      have hback : back out distance = data[i] := by
        have hj : out.size - distance = j := by omega
        have hget : out[j]? = data[j]? := by
          rw [← Array.getElem?_toList, hout, List.getElem?_take_of_lt (by omega), Array.getElem?_toList]
        rw [back, if_pos (by omega), hj, Array.getD_eq_getD_getElem?, hget, ← heq,
          Array.getElem?_eq_getElem hlt]
        rfl
      have hpush : (out.push (back out distance)).toList = data.toList.take (i + 1) := by
        rw [Array.toList_push, hout, hback, take_succ_of_lt hlt]
      have hrest := ih (i := i + 1) (j := j + 1) (by omega) (fun k hk => by
        have := hmatch (k + 1) (Nat.succ_lt_succ hk)
        rwa [Nat.add_right_comm i 1 k, Nat.add_right_comm j 1 k]) hpush
      rw [copy, hrest]
      congr 1
      omega

/-- Where the search stands, the expansion of what is found from there on gives the rest of the data. -/
theorem expand_tokensFrom (limit window : Nat) (data : Array UInt8) (i : Nat) (seen : Seen) :
    ∀ out : Array UInt8, out.toList = data.toList.take i →
      (expand (tokensFrom limit window data i seen) out).toList = data.toList := by
  induction i, seen using tokensFrom.induct limit window data with
  | case1 i seen h found known length distance hfound ih =>
      intro out hout
      obtain ⟨j, hj, rfl, -, -, hlength⟩ := repetition?_spec hfound
      rw [tokensFrom_copy h hfound]
      refine ih _ ?_
      refine copy_of_matches (j := j) (by omega) (by omega) (fun k hk => ?_) hout
      exact of_lt_matchLength (by omega : k < matchLength data i j limit)
  | case2 i seen h found known hnone ih =>
      intro out hout
      rw [tokensFrom_literal h hnone]
      refine ih _ ?_
      rw [Token.append, Array.toList_push, hout, take_succ_of_lt h]
  | case3 i seen h =>
      intro out hout
      rw [tokensFrom, dif_neg h]
      rw [expand, List.foldl_nil, hout]
      exact List.take_of_length_le (by rw [Array.length_toList]; omega)

theorem expand_tokens (limit window : Nat) (data : Array UInt8) :
    (expand (tokens limit window data) #[]).toList = data.toList :=
  expand_tokensFrom limit window data 0 ∅ #[] rfl

theorem within_tokensFrom (limit window : Nat) (data : Array UInt8) (i : Nat) (seen : Seen) :
    ∀ t ∈ tokensFrom limit window data i seen, t.Within limit window := by
  induction i, seen using tokensFrom.induct limit window data with
  | case1 i seen h found known length distance hfound ih =>
      obtain ⟨j, hj, rfl, hwindow, hleast, hlength⟩ := repetition?_spec hfound
      have hlimit := matchLength_le data i j limit
      intro t ht
      rw [tokensFrom_copy h hfound] at ht
      rcases List.mem_cons.mp ht with rfl | ht
      · exact ⟨hleast, by omega, by omega, hwindow⟩
      · exact ih t ht
  | case2 i seen h found known hnone ih =>
      intro t ht
      rw [tokensFrom_literal h hnone] at ht
      rcases List.mem_cons.mp ht with rfl | ht
      · exact trivial
      · exact ih t ht
  | case3 i seen h =>
      rw [tokensFrom, dif_neg h]
      intro t ht
      cases ht

theorem within_tokens (limit window : Nat) (data : Array UInt8) :
    ∀ t ∈ tokens limit window data, t.Within limit window :=
  within_tokensFrom limit window data 0 ∅

end EdgeFleet.Lz77
