/-! # Finite maps with text keys

A `KeyMap` is a list of entries in strictly ascending key order, so equal maps are equal lists and
a listing is always in key order. The order on keys is that of their code points, which is also
the order of their UTF-8 bytes.
-/

namespace EdgeFleet

/-- Entries whose keys ascend strictly. -/
def Ascending {α : Type} (es : List (String × α)) : Prop :=
  es.Pairwise fun a b => a.1 < b.1

/-- A finite map from text to `α`. -/
structure KeyMap (α : Type) where
  entries : List (String × α)
  ascending : Ascending entries

namespace KeyMap

variable {α β : Type}

/-- Puts one entry in its place, over any entry of the same key. -/
def put (k : String) (v : α) : List (String × α) → List (String × α)
  | [] => [(k, v)]
  | (k', v') :: es =>
    if k < k' then (k, v) :: (k', v') :: es
    else if k = k' then (k, v) :: es
    else (k', v') :: put k v es

theorem mem_put {k : String} {v : α} {e : String × α} {es : List (String × α)}
    (h : e ∈ put k v es) : e = (k, v) ∨ e ∈ es := by
  induction es with
  | nil => simpa [put] using h
  | cons d es ih =>
      obtain ⟨k', v'⟩ := d
      rw [put] at h
      split at h
      · simpa using h
      · split at h <;> grind

theorem lt_of_not_lt_of_ne {a b : String} (h : ¬a < b) (hne : a ≠ b) : b < a :=
  Decidable.byContradiction fun h' =>
    hne (String.le_antisymm (String.not_lt.1 h') (String.not_lt.1 h))

theorem ascending_put (k : String) (v : α) {es : List (String × α)} (h : Ascending es) :
    Ascending (put k v es) := by
  induction es with
  | nil => simp [put, Ascending]
  | cons d es ih =>
      obtain ⟨k', v'⟩ := d
      have htail : Ascending es := h.of_cons
      have hhead : ∀ e ∈ es, k' < e.1 := fun e he => List.rel_of_pairwise_cons h he
      rw [put]
      split
      next hlt =>
        refine List.Pairwise.cons (fun e he => ?_) h
        rcases List.mem_cons.1 he with rfl | he
        · exact hlt
        · exact String.lt_trans hlt (hhead e he)
      next hlt =>
        split
        next heq =>
          exact List.Pairwise.cons (fun e he => heq ▸ hhead e he) htail
        next hne =>
          refine List.Pairwise.cons (fun e he => ?_) (ih htail)
          rcases mem_put he with rfl | he
          · exact lt_of_not_lt_of_ne hlt hne
          · exact hhead e he

theorem ascending_filter {p : String × α → Bool} {es : List (String × α)} (h : Ascending es) :
    Ascending (es.filter p) :=
  List.Pairwise.sublist List.filter_sublist h

theorem ascending_map {f : String × α → β} {es : List (String × α)} (h : Ascending es) :
    Ascending (es.map fun e => (e.1, f e)) :=
  List.pairwise_map.2 h

def empty : KeyMap α := ⟨[], List.Pairwise.nil⟩

instance : EmptyCollection (KeyMap α) := ⟨empty⟩
instance : Inhabited (KeyMap α) := ⟨empty⟩

instance [DecidableEq α] : DecidableEq (KeyMap α) := fun a b =>
  if h : a.entries = b.entries then
    .isTrue (by cases a; cases b; cases h; rfl)
  else .isFalse fun e => h (e ▸ rfl)

/-- The value filed under `k`. -/
def get? (m : KeyMap α) (k : String) : Option α :=
  m.entries.lookup k

def contains (m : KeyMap α) (k : String) : Bool :=
  (m.get? k).isSome

def insert (m : KeyMap α) (k : String) (v : α) : KeyMap α :=
  ⟨put k v m.entries, ascending_put k v m.ascending⟩

def erase (m : KeyMap α) (k : String) : KeyMap α :=
  ⟨m.entries.filter fun e => e.1 != k, ascending_filter m.ascending⟩

/-- The entries that satisfy `p`. -/
def filter (p : String → α → Bool) (m : KeyMap α) : KeyMap α :=
  ⟨m.entries.filter fun e => p e.1 e.2, ascending_filter m.ascending⟩

/-- The same keys, each value replaced by `f key value`. -/
def map (f : String → α → β) (m : KeyMap α) : KeyMap β :=
  ⟨m.entries.map fun e => (e.1, f e.1 e.2), ascending_map (f := fun e => f e.1 e.2) m.ascending⟩

/-- Files the pairs one after the other; of two with one key the last stays. -/
def ofList (es : List (String × α)) : KeyMap α :=
  es.foldl (fun m e => m.insert e.1 e.2) ∅

/-- The entries in key order. -/
def toList (m : KeyMap α) : List (String × α) := m.entries

def keys (m : KeyMap α) : List String := m.entries.map (·.1)

/-- The values in key order. -/
def values (m : KeyMap α) : List α := m.entries.map (·.2)

def size (m : KeyMap α) : Nat := m.entries.length

def isEmpty (m : KeyMap α) : Bool := m.entries.isEmpty

end KeyMap

end EdgeFleet
