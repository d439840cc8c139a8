import EdgeFleet.Json.Decode
import EdgeFleet.KeyMap.Lemmas
import EdgeFleet.Proofs.Json.RoundTrip

/-! # Written records read back

A form that is faithful can be written, kept and read without loss. Lists, maps and optional values of
faithful forms are faithful, and a record is read field by field when no field is written twice.
-/

namespace EdgeFleet.Json

/-! ## Tame values -/

/-- The value is read back from its written form, and it is nested at most `n` deep. -/
structure Tame (n : Nat) (j : Json) : Prop where
  plain : j.isPlain = true
  keepable : j.keepable = true
  depth : j.depth ≤ n

namespace Tame

theorem mono {m n : Nat} {j : Json} (h : Tame m j) (hle : m ≤ n) : Tame n j :=
  ⟨h.plain, h.keepable, h.depth.trans hle⟩

theorem text (s : String) : Tame 0 (text s) := ⟨rfl, rfl, Nat.le_refl _⟩

theorem int {n : Int} (h : n.natAbs < 1 <<< 64) : Tame 0 (.int n) := by
  refine ⟨rfl, ?_, Nat.le_refl _⟩
  have hbound : 1 <<< 64 ≤ (1 <<< 1024) - (1 <<< 970) := by decide +kernel
  rw [Json.keepable, decide_eq_true_eq]
  exact Nat.lt_of_lt_of_le h hbound

theorem items {n : Nat} {js : List Json} (h : ∀ j ∈ js, Tame n j) :
    arePlain js = true ∧ keepableItems js = true ∧ depthItems js ≤ n := by
  induction js with
  | nil => exact ⟨rfl, rfl, Nat.zero_le _⟩
  | cons j js ih =>
      obtain ⟨hplain, hkeepable, hdepth⟩ := ih fun j' hj => h j' (List.mem_cons_of_mem _ hj)
      have hj := h j List.mem_cons_self
      rw [arePlain, keepableItems, depthItems, hj.plain, hj.keepable, hplain, hkeepable]
      exact ⟨rfl, rfl, Nat.max_le.mpr ⟨hj.depth, hdepth⟩⟩

theorem members {n : Nat} {ms : List (String × Json)} (h : ∀ m ∈ ms, Tame n m.2) :
    arePlainMembers (ms.map fun m => (some m.1, m.2)) = true ∧
      keepableMembers (ms.map fun m => (some m.1, m.2)) = true ∧
      depthMembers (ms.map fun m => (some m.1, m.2)) ≤ n := by
  induction ms with
  | nil => exact ⟨rfl, rfl, Nat.zero_le _⟩
  | cons m ms ih =>
      obtain ⟨hplain, hkeepable, hdepth⟩ := ih fun m' hm => h m' (List.mem_cons_of_mem _ hm)
      have hm := h m List.mem_cons_self
      rw [List.map_cons, arePlainMembers, keepableMembers, depthMembers, hm.plain, hm.keepable,
        hplain, hkeepable]
      exact ⟨rfl, rfl, Nat.max_le.mpr ⟨hm.depth, hdepth⟩⟩

theorem arr {n : Nat} {js : List Json} (h : ∀ j ∈ js, Tame n j) : Tame (n + 1) (.arr js) := by
  obtain ⟨hplain, hkeepable, hdepth⟩ := items h
  exact ⟨hplain, hkeepable, Nat.succ_le_succ hdepth⟩

theorem record {n : Nat} {ms : List (String × Json)} (h : ∀ m ∈ ms, Tame n m.2) :
    Tame (n + 1) (record ms) := by
  obtain ⟨hplain, hkeepable, hdepth⟩ := members h
  exact ⟨hplain, hkeepable, Nat.succ_le_succ hdepth⟩

end Tame

theorem forall_mem_omitIf {P : String × Json → Prop} {absent : Bool} {key : String} {j : Json}
    (h : P (key, j)) : ∀ m ∈ omitIf absent key j, P m := by
  intro m hm
  rw [omitIf] at hm
  split at hm
  · cases hm
  · rw [List.mem_singleton.mp hm]
    exact h

theorem forall_mem_whenSome {α : Type} {P : String × Json → Prop} {key : String} {f : α → Json}
    (h : ∀ a, P (key, f a)) (o : Option α) : ∀ m ∈ whenSome key f o, P m := by
  intro m hm
  cases o with
  | none => cases hm
  | some a =>
      rw [List.mem_singleton.mp hm]
      exact h a

/-! ## Fields -/

theorem lookup_omitIf (absent : Bool) (key name : String) (j : Json) :
    (omitIf absent key j).lookup name = if name == key then (if absent then none else some j) else none := by
  cases absent <;> by_cases h : name = key <;> simp [omitIf, lookup_cons_of_ne, h]

theorem lookup_whenSome {α : Type} (key name : String) (f : α → Json) (o : Option α) :
    (whenSome key f o).lookup name = if name == key then o.map f else none := by
  cases o <;> by_cases h : name = key <;> simp [whenSome, lookup_cons_of_ne, h]

theorem keys_omitIf (absent : Bool) (key : String) (j : Json) :
    ((omitIf absent key j).map (·.1)).Sublist [key] := by
  cases absent <;> simp [omitIf]

theorem keys_whenSome {α : Type} (key : String) (f : α → Json) (o : Option α) :
    ((whenSome key f o).map (·.1)).Sublist [key] := by
  cases o <;> simp [whenSome]

theorem filter_key {ms : List (String × Json)} (h : (ms.map (·.1)).Nodup) (name : String) :
    ms.filter (fun m => m.1 == name) = ((ms.lookup name).map fun j => (name, j)).toList := by
  induction ms with
  | nil => rfl
  | cons m ms ih =>
      obtain ⟨k, j⟩ := m
      obtain ⟨hfresh, htail⟩ := List.nodup_cons.mp h
      by_cases hk : k = name
      · subst hk
        have hnone : ms.lookup k = none := List.lookup_eq_none_iff.mpr fun m hm => by
          have hne : k ≠ m.1 := fun heq => hfresh (List.mem_map.mpr ⟨m, hm, heq.symm⟩)
          simpa using hne
        simp [ih htail, hnone]
      · simp [hk, ih htail, lookup_cons_of_ne (Ne.symm hk)]

theorem lookupOnce?_members {ms : List (String × Json)} (h : (ms.map (·.1)).Nodup) (name : String) :
    lookupOnce? (ms.map fun m => (some m.1, m.2)) name = some (ms.lookup name) := by
  have hfilter : (ms.map fun m => ((some m.1, m.2) : Option String × Json)).filter
      (fun m => m.1 == some name) =
      (ms.filter fun m => m.1 == name).map fun m => (some m.1, m.2) := by
    rw [List.filter_map]
    rfl
  rw [lookupOnce?, hfilter, filter_key h]
  cases ms.lookup name <;> rfl

/-- A record none of whose fields is written twice is read field by field. -/
theorem fields?_record {ms : List (String × Json)} (h : (ms.map (·.1)).Nodup) (names : List String) :
    fields? names (record ms) = some (names.map (List.lookup · ms)) := by
  have hkeys : ((ms.map fun m => ((some m.1, m.2) : Option String × Json)).all
      fun m => m.1.isSome) = true := by simp
  rw [record, fields?, if_pos hkeys]
  induction names with
  | nil => rfl
  | cons name names ih => simp [List.mapM_cons, lookupOnce?_members h, ih]

section

variable {α : Type} (d : α) (g : Json → Option α) (j : Json)

@[simp] theorem required_some : required g (some j) = g j := by rw [required, Option.bind_some]

@[simp] theorem defaulted_some : defaulted d g (some j) = g j := by rw [defaulted]

end

@[simp] theorem asString?_text (s : String) : asString? (text s) = some s := rfl

/-! ## Faithful forms -/

/-- Values are written by `f`, at most `n` levels deep, and read by `g`. -/
structure Faithful {α : Type} (n : Nat) (f : α → Json) (g : Json → Option α) : Prop where
  tame : ∀ a, Tame n (f a)
  reads : ∀ a, g (f a) = some a

namespace Faithful

variable {α : Type} {n : Nat} {f : α → Json} {g : Json → Option α}

theorem text : Faithful 0 Json.text asString? := ⟨Tame.text, fun _ => rfl⟩

theorem mapM (h : Faithful n f g) (as : List α) : (as.map f).mapM g = some as := by
  induction as with
  | nil => rfl
  | cons a as ih => simp [List.mapM_cons, h.reads, ih]

theorem list (h : Faithful n f g) : Faithful (n + 1) (ofList f) (asList? g) where
  tame as := Tame.arr fun j hj => by
    obtain ⟨a, -, rfl⟩ := List.mem_map.mp hj
    exact h.tame a
  reads as := h.mapM as

theorem entries (h : Faithful n f g) (es : List (String × α)) :
    ((es.map fun e => ((some e.1, f e.2) : Option String × Json)).mapM fun m => do
      let k ← m.1
      let v ← g m.2
      pure (k, v)) = some es := by
  induction es with
  | nil => rfl
  | cons e es ih => simp_all [List.mapM_cons, h.reads]

theorem map (h : Faithful n f g) : Faithful (n + 1) (ofMap f) (asMap? g) where
  tame m := Tame.record fun e he => by
    obtain ⟨e', -, rfl⟩ := List.mem_map.mp he
    exact h.tame e'.2
  reads m := by
    have hentries := h.entries m.toList
    rw [ofMap, record, asMap?, List.map_map]
    simp only [Function.comp_def]
    rw [hentries, Option.map_some, KeyMap.ofList_toList]

/-- An optional field is left out when it is absent. -/
theorem defaulted_none (h : Faithful n f g) (hf : ∀ a, f a ≠ .null) (o : Option α) :
    defaulted none (asOption? g) (o.map f) = some o := by
  cases o with
  | none => rfl
  | some a =>
      rw [Option.map_some, defaulted]
      unfold asOption?
      split
      · next heq => exact absurd heq (hf a)
      · rw [h.reads, Option.map_some]

/-- A field with a default may be left out when it has the default. -/
theorem defaulted_of (h : Faithful n f g) {absent : Bool} {a d : α} (hd : absent = true → a = d) :
    defaulted d g (if absent then none else some (f a)) = some a := by
  cases absent with
  | true => rw [hd rfl]; rfl
  | false => exact h.reads a

/-- What is written is read back. -/
theorem bind_parse? (h : Faithful n f g) (a : α) : (parse? (f a).render).bind g = some a := by
  rw [parse?_render (h.tame a).plain, Option.bind_some, h.reads]

end Faithful

end EdgeFleet.Json
