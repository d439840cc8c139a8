import EdgeFleet.KeyMap.Lemmas
import Mathlib.Data.Set.Card

/-! # How many keys

Counting the entries of a map is counting the keys that have such an entry.
-/

namespace EdgeFleet.KeyMap

variable {α : Type} (m : KeyMap α)

/-- The entries that satisfy `p` are as many as the keys with a value that does. -/
theorem countP_toList (p : String → α → Bool) :
    m.toList.countP (fun e => p e.1 e.2) = {k | ∃ v, m.get? k = some v ∧ p k v = true}.ncard := by
  have hkeys : ((m.filter p).keys.toFinset : Set String) = {k | ∃ v, m.get? k = some v ∧ p k v = true} := by
    ext k
    simp only [List.coe_toFinset, Set.mem_ofPred_eq, mem_keys, get?_filter, Option.isSome_iff_exists,
      Option.filter_eq_some_iff]
  rw [← hkeys, Set.ncard_coe_finset, List.toFinset_card_of_nodup (m.filter p).nodup_keys, keys,
    List.length_map, List.countP_eq_length_filter]
  rfl

theorem countP_values (p : α → Bool) :
    m.values.countP p = {k | ∃ v, m.get? k = some v ∧ p v = true}.ncard := by
  rw [← m.countP_toList fun _ => p, values, List.countP_map]
  rfl

theorem size_eq_ncard : m.size = {k | (m.get? k).isSome = true}.ncard := by
  have hall := m.countP_toList fun _ _ => true
  rw [List.countP_true] at hall
  refine hall.trans (congrArg Set.ncard ?_)
  ext k
  simp [Option.isSome_iff_exists]

end EdgeFleet.KeyMap
