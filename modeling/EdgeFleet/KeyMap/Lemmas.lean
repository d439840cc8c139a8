import EdgeFleet.KeyMap.Basic

/-! # Look-up in finite maps

Every operation on a map is determined by what it does to look-up, and two maps with the same look-up
are equal.
-/

namespace EdgeFleet

/-! ## Lists of entries -/

section

variable {α β : Type}

theorem lookup_cons_of_ne {κ : Type} [BEq κ] [LawfulBEq κ] {k k' : κ} (h : k ≠ k') (v : α)
    (es : List (κ × α)) :
    ((k', v) :: es).lookup k = es.lookup k := by
  simp [List.lookup_cons, beq_false_of_ne h]

theorem lookup_map (f : String → α → β) (es : List (String × α)) (k : String) :
    (es.map fun e => (e.1, f e.1 e.2)).lookup k = (es.lookup k).map (f k) := by
  induction es with
  | nil => rfl
  | cons e es ih =>
      obtain ⟨k', v⟩ := e
      by_cases h : k = k'
      · subst h
        simp
      · simp [lookup_cons_of_ne h, ih]

theorem isSome_mapM {f : α → Option β} {as : List α} :
    (as.mapM f).isSome = true ↔ ∀ a ∈ as, (f a).isSome = true := by
  induction as with
  | nil => simp
  | cons a as ih =>
      rw [List.forall_mem_cons, ← ih, List.mapM_cons]
      cases f a <;> cases as.mapM f <;> simp

end

namespace Ascending

variable {α : Type} {es es' : List (String × α)}

/-- No key below the first one is in an ascending list. -/
theorem lookup_of_lt {k k' : String} {v : α} (h : Ascending ((k, v) :: es)) (hlt : k' < k) :
    ((k, v) :: es).lookup k' = none := by
  rw [List.lookup_eq_none_iff]
  intro e he
  have hle : k' < e.1 := by
    rcases List.mem_cons.1 he with rfl | he
    · exact hlt
    · exact String.lt_trans hlt (List.rel_of_pairwise_cons h he)
  simpa using fun heq : k' = e.1 => String.lt_irrefl _ (heq ▸ hle)

/-- The first key of an ascending list occurs nowhere behind. -/
theorem lookup_tail {k : String} {v : α} (h : Ascending ((k, v) :: es)) : es.lookup k = none := by
  cases es with
  | nil => rfl
  | cons e es => exact lookup_of_lt h.of_cons (List.rel_of_pairwise_cons h (List.mem_cons_self ..))

theorem mem_iff_lookup (h : Ascending es) {k : String} {v : α} :
    (k, v) ∈ es ↔ es.lookup k = some v := by
  induction es with
  | nil => simp
  | cons e es ih =>
      obtain ⟨k', v'⟩ := e
      have htail := ih h.of_cons
      by_cases hk : k = k'
      · subst hk
        have hnot : (k, v) ∉ es := fun hmem => by
          rw [htail, lookup_tail h] at hmem
          cases hmem
        simp [hnot, eq_comm]
      · simp [lookup_cons_of_ne hk, hk, htail]

theorem lookup_filter {p : String × α → Bool} (h : Ascending es) (k : String) :
    (es.filter p).lookup k = (es.lookup k).filter fun v => p (k, v) := by
  induction es with
  | nil => rfl
  | cons e es ih =>
      obtain ⟨k', v⟩ := e
      have htail := ih h.of_cons
      by_cases hk : k = k'
      · subst hk
        by_cases hp : p (k, v) = true
        · simp [hp, Option.filter]
        · simp [hp, htail, h.lookup_tail, Option.filter]
      · by_cases hp : p (k', v) = true <;> simp [hp, lookup_cons_of_ne hk, htail]

/-- Ascending lists with the same look-up are equal. -/
theorem eq_of_lookup (h : Ascending es) (h' : Ascending es')
    (hl : ∀ k, es.lookup k = es'.lookup k) : es = es' := by
  induction es generalizing es' with
  | nil =>
      cases es' with
      | nil => rfl
      | cons e' es' =>
          obtain ⟨k, v⟩ := e'
          simpa using hl k
  | cons e es ih =>
      obtain ⟨k, v⟩ := e
      cases es' with
      | nil => simpa using hl k
      | cons e' es' =>
          obtain ⟨k', v'⟩ := e'
          have hk : k = k' := by
            refine Decidable.byContradiction fun hne => ?_
            by_cases hlt : k < k'
            · simpa [h'.lookup_of_lt hlt] using hl k
            · have hgt := KeyMap.lt_of_not_lt_of_ne hlt hne
              simpa [h.lookup_of_lt hgt] using hl k'
          subst hk
          have hv : v = v' := by simpa using hl k
          have htail : es = es' := ih h.of_cons h'.of_cons fun k₂ => by
            by_cases hk₂ : k₂ = k
            · rw [hk₂, h.lookup_tail, h'.lookup_tail]
            · simpa [lookup_cons_of_ne hk₂] using hl k₂
          rw [hv, htail]

end Ascending

namespace KeyMap

variable {α β : Type}

theorem lookup_put (k k' : String) (v : α) (es : List (String × α)) :
    (put k v es).lookup k' = if k' = k then some v else es.lookup k' := by
  induction es with
  | nil =>
      by_cases h : k' = k
      · simp [put, h]
      · simp [put, h, lookup_cons_of_ne h]
  | cons e es ih =>
      obtain ⟨k₁, v₁⟩ := e
      rw [put]
      split
      next =>
        by_cases h : k' = k
        · simp [h]
        · simp [h, lookup_cons_of_ne h]
      next =>
        split
        next heq =>
          by_cases h : k' = k
          · simp [h]
          · simp [h, lookup_cons_of_ne h, lookup_cons_of_ne (heq ▸ h)]
        next hne =>
          by_cases h : k' = k₁
          · simp [h, Ne.symm hne]
          · simp [lookup_cons_of_ne h, ih]

/-! ## Operations -/

variable (m : KeyMap α)

@[simp] theorem get?_empty (k : String) : (∅ : KeyMap α).get? k = none := rfl

theorem get?_insert (k k' : String) (v : α) :
    (m.insert k v).get? k' = if k' = k then some v else m.get? k' :=
  lookup_put k k' v m.entries

@[simp] theorem get?_insert_self (k : String) (v : α) : (m.insert k v).get? k = some v := by
  simp [get?_insert]

theorem get?_insert_of_ne {k k' : String} (v : α) (h : k' ≠ k) :
    (m.insert k v).get? k' = m.get? k' := by
  simp [get?_insert, h]

@[simp] theorem get?_filter (p : String → α → Bool) (k : String) :
    (m.filter p).get? k = (m.get? k).filter (p k) :=
  m.ascending.lookup_filter k

theorem get?_erase (k k' : String) :
    (m.erase k).get? k' = if k' = k then none else m.get? k' := by
  have hl := m.ascending.lookup_filter (p := fun e => e.1 != k) k'
  rw [erase, get?, get?, hl]
  by_cases h : k' = k <;> cases m.entries.lookup k' <;> simp [h, Option.filter]

@[simp] theorem get?_map (f : String → α → β) (k : String) :
    (m.map f).get? k = (m.get? k).map (f k) :=
  lookup_map f m.entries k

theorem contains_eq (k : String) : m.contains k = (m.get? k).isSome := rfl

/-! ## Listings -/

theorem mem_toList {k : String} {v : α} : (k, v) ∈ m.toList ↔ m.get? k = some v :=
  m.ascending.mem_iff_lookup

theorem mem_keys {k : String} : k ∈ m.keys ↔ (m.get? k).isSome := by
  simp only [keys, List.mem_map, Option.isSome_iff_exists, ← mem_toList]
  exact ⟨fun ⟨e, he, hk⟩ => ⟨e.2, hk ▸ he⟩, fun ⟨v, hv⟩ => ⟨(k, v), hv, rfl⟩⟩

theorem mem_values {v : α} : v ∈ m.values ↔ ∃ k, m.get? k = some v := by
  simp only [values, List.mem_map, ← mem_toList]
  exact ⟨fun ⟨e, he, hv⟩ => ⟨e.1, hv ▸ he⟩, fun ⟨k, hk⟩ => ⟨(k, v), hk, rfl⟩⟩

theorem values_insert_perm {k : String} (v : α) (h : m.get? k = none) :
    (m.insert k v).values.Perm (v :: m.values) := by
  have hput : ∀ es : List (String × α), es.lookup k = none → (put k v es).Perm ((k, v) :: es) := by
    intro es hes
    induction es with
    | nil => exact .refl _
    | cons e es ih =>
        obtain ⟨k', v'⟩ := e
        have hne : k ≠ k' := by
          rintro rfl
          simp at hes
        rw [lookup_cons_of_ne hne] at hes
        rw [put, if_neg hne]
        split
        · exact .refl _
        · exact ((ih hes).cons _).trans (.swap ..)
  exact (hput m.entries h).map (·.2)

/-- No key is listed twice. -/
theorem nodup_keys : m.keys.Nodup := by
  refine List.pairwise_map.2 (List.Pairwise.imp ?_ m.ascending)
  exact fun h heq => String.lt_irrefl _ (heq ▸ h)

/-! ## Equality -/

/-- Maps with the same look-up are equal. -/
theorem ext {a b : KeyMap α} (h : ∀ k, a.get? k = b.get? k) : a = b := by
  have he : a.entries = b.entries := a.ascending.eq_of_lookup b.ascending h
  cases a
  cases b
  cases he
  rfl

/-- Filing a value where it is filed already changes nothing. -/
theorem isEmpty_iff : m.isEmpty = true ↔ m = ∅ := by
  constructor
  · intro h
    exact ext fun k => by rw [get?, List.isEmpty_iff.mp h]; rfl
  · rintro rfl
    rfl

theorem insert_of_get? {k : String} {v : α} (h : m.get? k = some v) : m.insert k v = m := by
  apply ext
  intro k'
  rw [get?_insert]
  split
  · next hk => rw [hk, h]
  · rfl

/-! ## Replacing all values -/

theorem erase_insert (k : String) (v : α) : (m.insert k v).erase k = m.erase k := by
  refine ext fun i => ?_
  rw [get?_erase, get?_erase, get?_insert]
  split <;> rfl

theorem erase_of_get? {k : String} (h : m.get? k = none) : m.erase k = m := by
  refine ext fun i => ?_
  rw [get?_erase]
  split
  · next hi => rw [hi, h]
  · rfl

theorem keys_map (f : String → α → β) : (m.map f).keys = m.keys := by
  rw [keys, keys, map, List.map_map]
  rfl

theorem map_insert (f : String → α → β) (k : String) (v : α) :
    (m.insert k v).map f = (m.map f).insert k (f k v) := by
  apply ext
  intro k'
  simp only [get?_map, get?_insert]
  split
  · next h => rw [h, Option.map_some]
  · rfl

theorem map_map {γ : Type} (f : String → α → β) (g : String → β → γ) :
    (m.map f).map g = m.map fun k v => g k (f k v) := by
  apply ext
  intro k
  simp only [get?_map, Option.map_map]
  rfl

/-! ## Maps from lists -/

/-- Of the pairs with one key the last one counts, and before them what was there. -/
theorem get?_foldl_insert (es : List (String × α)) (k : String) :
    (es.foldl (fun m e => m.insert e.1 e.2) m).get? k = (es.reverse.lookup k).or (m.get? k) := by
  induction es generalizing m with
  | nil => rfl
  | cons e es ih =>
      rw [List.foldl_cons, ih, List.reverse_cons, List.lookup_append, get?_insert, Option.or_assoc]
      congr 1
      obtain ⟨k', v⟩ := e
      by_cases hk : k = k'
      · simp [hk]
      · simp [hk, lookup_cons_of_ne hk]

theorem get?_ofList (es : List (String × α)) (k : String) :
    (ofList es).get? k = es.reverse.lookup k := by
  rw [ofList, get?_foldl_insert, get?_empty, Option.or_none]

/-- When no key occurs twice, the order of the pairs does not matter. -/
theorem get?_ofList_of_nodup {es : List (String × α)} (h : (es.map (·.1)).Nodup) {k : String} {v : α} :
    (ofList es).get? k = some v ↔ (k, v) ∈ es := by
  rw [get?_ofList]
  have hr : (es.reverse.map (·.1)).Nodup := by
    rw [List.map_reverse]
    exact (List.reverse_perm _).nodup_iff.2 h
  rw [← List.mem_reverse]
  generalize es.reverse = rs at hr
  induction rs with
  | nil => simp
  | cons e rs ih =>
      obtain ⟨k', v'⟩ := e
      obtain ⟨hnot, hr⟩ := List.nodup_cons.1 hr
      by_cases hk : k = k'
      · subst hk
        have hfresh : (k, v) ∉ rs := fun hmem => hnot (List.mem_map.2 ⟨_, hmem, rfl⟩)
        simp [hfresh, eq_comm]
      · simp [lookup_cons_of_ne hk, hk, ih hr]

/-- The entries of a map make up the map again, in whatever order they come. -/
theorem ofList_of_perm {m : KeyMap α} {es : List (String × α)} (h : es.Perm m.toList) :
    ofList es = m := by
  apply ext
  intro k
  refine Option.ext fun v => ?_
  have hkeys : (es.map (·.1)).Nodup := (h.map _).nodup_iff.mpr m.nodup_keys
  rw [get?_ofList_of_nodup hkeys, h.mem_iff, mem_toList]

@[simp] theorem ofList_toList : ofList m.toList = m := ofList_of_perm (.refl _)

/-- Filing a value for each entry, one after the other, is replacing all values. -/
theorem foldl_insert_toList (f : String → α → β) :
    m.toList.foldl (fun m' e => m'.insert e.1 (f e.1 e.2)) ∅ = m.map f := by
  have hmap : (m.map f).toList = m.toList.map fun e => (e.1, f e.1 e.2) := rfl
  rw [← (m.map f).ofList_toList, ofList, hmap, List.foldl_map]

end KeyMap

end EdgeFleet
