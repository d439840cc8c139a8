import EdgeFleet.Toml.Decode
import Mathlib.Data.List.Infix

/-! # Integers that are read have 64 bits

No integer of a document is greater or less than the format allows, however deep in the document it
stands.
-/

namespace EdgeFleet.Toml

/-- All integers in the value have 64 bits. -/
inductive InRange : Toml → Prop where
  | text (s : String) : InRange (.text s)
  | integer {n : Int} (h : Int64.minValue.toInt ≤ n ∧ n ≤ Int64.maxValue.toInt) : InRange (.integer n)
  | fraction : InRange .fraction
  | bool (b : Bool) : InRange (.bool b)
  | moment : InRange .moment
  | array {items : List Toml} (h : ∀ t ∈ items, InRange t) : InRange (.array items)
  | table {origin : Origin} {ms : Members} (h : ∀ m ∈ ms, InRange m.2) : InRange (.table origin ms)
  | tables {items : List Members} (h : ∀ ms ∈ items, ∀ m ∈ ms, InRange m.2) : InRange (.tables items)

/-- All integers in the members have 64 bits. -/
def Members.InRange (ms : Members) : Prop := ∀ m ∈ ms, m.2.InRange

/-- Whatever the reader yields has the property. -/
def Reader.Yields {α : Type} (read : Reader α) (P : α → Prop) : Prop :=
  ∀ cs a rest, read cs = some (a, rest) → P a

/-! ## Values -/

theorem inRange_of_readInteger? {word : List Char} {n : Int} (h : readInteger? word = some n) :
    (Toml.integer n).InRange := by
  rw [readInteger?, Option.filter_eq_some_iff] at h
  exact .integer (by simpa using h.2)

theorem yields_readWord? : Reader.Yields readWord? InRange := by
  intro cs t rest h
  simp only [readWord?] at h
  split at h
  · cases h
    exact .bool true
  split at h
  · cases h
    exact .bool false
  split at h
  · next hread =>
    cases h
    exact inRange_of_readInteger? hread
  split at h
  · split at h <;> cases h <;> exact .moment
  split at h
  · cases h
    exact .fraction
  · cases h

theorem yields_readScalar? : Reader.Yields readScalar? InRange := by
  intro cs t rest h
  rw [readScalar?] at h
  split at h
  · obtain ⟨r, -, heq⟩ := Option.map_eq_some_iff.mp h
    cases heq
    exact .text r.1
  · exact yields_readWord? cs t rest h

section

variable {value : Reader Toml} (hvalue : value.Yields InRange)

include hvalue

theorem yields_readItems? (fuel : Nat) : Reader.Yields (readItems? value fuel) fun items => ∀ t ∈ items, t.InRange := by
  induction fuel with
  | zero => intro cs items rest h; cases h
  | succ fuel ih =>
      intro cs items rest h
      rw [readItems?] at h
      split at h
      · cases h
        simp
      · simp only [Option.bind_eq_bind, Option.bind_eq_some_iff] at h
        obtain ⟨⟨item, rest'⟩, hitem, h⟩ := h
        have hfirst := hvalue _ _ _ hitem
        split at h
        · obtain ⟨⟨items', rest''⟩, hitems, heq⟩ := Option.map_eq_some_iff.mp h
          cases heq
          exact List.forall_mem_cons.mpr ⟨hfirst, ih _ _ _ hitems⟩
        · cases h
          simpa using hfirst
        · cases h

theorem yields_readPair? : Reader.Yields (readPair? value) fun pair => pair.2.InRange := by
  intro cs pair rest h
  simp only [readPair?, Option.bind_eq_bind, Option.bind_eq_some_iff] at h
  obtain ⟨⟨path, rest'⟩, -, cs', -, h⟩ := h
  obtain ⟨⟨t, rest''⟩, hread, heq⟩ := Option.map_eq_some_iff.mp h
  cases heq
  exact hvalue _ _ _ hread

theorem yields_readPairs? (fuel : Nat) :
    Reader.Yields (readPairs? value fuel) fun pairs => ∀ p ∈ pairs, p.2.InRange := by
  induction fuel with
  | zero => intro cs pairs rest h; cases h
  | succ fuel ih =>
      intro cs pairs rest h
      simp only [readPairs?, Option.bind_eq_bind, Option.bind_eq_some_iff] at h
      obtain ⟨⟨pair, rest'⟩, hpair, h⟩ := h
      have hfirst := yields_readPair? hvalue _ _ _ hpair
      split at h
      · obtain ⟨⟨pairs', rest''⟩, hpairs, heq⟩ := Option.map_eq_some_iff.mp h
        cases heq
        exact List.forall_mem_cons.mpr ⟨hfirst, ih _ _ _ hpairs⟩
      · cases h
        simpa using hfirst
      · cases h

end

/-! ## Tables -/

theorem inRange_nil : Members.InRange [] := by
  intro m hm
  cases hm

theorem Members.InRange.concat {ms : Members} (h : ms.InRange) {key : String} {t : Toml} (ht : t.InRange) :
    Members.InRange (ms ++ [(key, t)]) := by
  intro m hm
  rcases List.mem_append.mp hm with hm | hm
  · exact h m hm
  · rw [List.mem_singleton.mp hm]
    exact ht

theorem inRange_of_lookup {ms : Members} (h : ms.InRange) {key : String} {t : Toml}
    (hlookup : ms.lookup key = some t) : t.InRange := by
  obtain ⟨front, rest, rfl, -⟩ := List.lookup_eq_some_iff.mp hlookup
  exact h (key, t) (by simp)

/-- A change keeps to the range if what it makes of each value does. -/
theorem inRange_alter {ms ms' : Members} (h : ms.InRange) {key : String} {f : Option Toml → Option Toml}
    (hf : ∀ old new, (∀ t, old = some t → t.InRange) → f old = some new → new.InRange)
    (halter : alter key f ms = some ms') : ms'.InRange := by
  rw [alter] at halter
  split at halter
  · next old hlookup =>
    obtain ⟨new, hnew, rfl⟩ := Option.map_eq_some_iff.mp halter
    have hin := hf _ _ (fun t ht => by cases ht; exact inRange_of_lookup h hlookup) hnew
    intro m hm
    obtain ⟨m', hm', rfl⟩ := List.mem_map.mp hm
    split
    · exact hin
    · exact h m' hm'
  · obtain ⟨new, hnew, rfl⟩ := Option.map_eq_some_iff.mp halter
    exact h.concat (hf _ _ (fun t ht => by cases ht) hnew)

/-- The last of repeated tables, or an empty one. -/
theorem inRange_getLast {items : List Members} (h : ∀ ms ∈ items, Members.InRange ms) :
    Members.InRange (items.getLast?.getD []) := by
  cases hlast : items.getLast? with
  | none => intro m hm; cases hm
  | some ms => exact h ms (List.mem_of_getLast? hlast)

theorem inRange_replaceLast {items : List Members} (h : ∀ ms ∈ items, Members.InRange ms) {ms : Members}
    (hms : ms.InRange) : (Toml.tables (items.dropLast ++ [ms])).InRange := by
  refine .tables fun ms' hms' => ?_
  rcases List.mem_append.mp hms' with hms' | hms'
  · exact h ms' (List.mem_of_mem_dropLast hms')
  · rw [List.mem_singleton.mp hms']
    exact hms

theorem inRange_putAt {value : Toml} (hvalue : value.InRange) {path : List String} {fits : Bool}
    {ms ms' : Members} (h : ms.InRange) (hput : putAt value path fits ms = some ms') : ms'.InRange := by
  induction path generalizing fits ms ms' with
  | nil => cases hput
  | cons key path ih =>
      cases path with
      | nil =>
          refine inRange_alter h (fun old new _ hnew => ?_) hput
          split at hnew
          · cases hnew
            exact hvalue
          · cases hnew
      | cons key' path =>
          refine inRange_alter h (fun old new hold hnew => ?_) hput
          split at hnew
          · obtain ⟨inner, hinner, rfl⟩ := Option.map_eq_some_iff.mp hnew
            exact .table (ih inRange_nil hinner)
          · obtain ⟨inner, hinner, rfl⟩ := Option.map_eq_some_iff.mp hnew
            cases hold _ rfl with
            | table hold => exact .table (ih hold hinner)
          · obtain ⟨inner, hinner, rfl⟩ := Option.map_eq_some_iff.mp hnew
            cases hold _ rfl with
            | table hold => exact .table (ih hold hinner)
          · obtain ⟨last, hlast, rfl⟩ := Option.map_eq_some_iff.mp hnew
            cases hold _ rfl with
            | tables hold => exact inRange_replaceLast hold (ih (inRange_getLast hold) hlast)
          · cases hnew

theorem inRange_within {f : Members → Option Members}
    (hf : ∀ ms ms' : Members, ms.InRange → f ms = some ms' → ms'.InRange) {path : List String} {ms ms' : Members}
    (h : ms.InRange) (hwithin : within f path ms = some ms') : ms'.InRange := by
  induction path generalizing ms ms' with
  | nil => exact hf ms ms' h hwithin
  | cons key path ih =>
      refine inRange_alter h (fun old new hold hnew => ?_) hwithin
      split at hnew
      · obtain ⟨inner, hinner, rfl⟩ := Option.map_eq_some_iff.mp hnew
        exact .table (ih inRange_nil hinner)
      · cases hnew
      · obtain ⟨inner, hinner, rfl⟩ := Option.map_eq_some_iff.mp hnew
        cases hold _ rfl with
        | table hold => exact .table (ih hold hinner)
      · obtain ⟨last, hlast, rfl⟩ := Option.map_eq_some_iff.mp hnew
        cases hold _ rfl with
        | tables hold => exact inRange_replaceLast hold (ih (inRange_getLast hold) hlast)
      · cases hnew

theorem inRange_openTable {key : String} {ms ms' : Members} (h : ms.InRange)
    (hopen : openTable key ms = some ms') : ms'.InRange := by
  refine inRange_alter h (fun old new hold hnew => ?_) hopen
  split at hnew
  · cases hnew
    exact .table inRange_nil
  · cases hnew
    cases hold _ rfl with
    | table hold => exact .table hold
  · cases hnew

theorem inRange_openNext {key : String} {ms ms' : Members} (h : ms.InRange)
    (hopen : openNext key ms = some ms') : ms'.InRange := by
  have hnew : ∀ ms ∈ [([] : Members)], Members.InRange ms := by
    intro ms hms m hm
    rw [List.mem_singleton.mp hms] at hm
    cases hm
  refine inRange_alter h (fun old new hold hnext => ?_) hopen
  split at hnext
  · cases hnext
    exact .tables hnew
  · cases hnext
    cases hold _ rfl with
    | tables hold => exact .tables (List.forall_mem_append.mpr ⟨hold, hnew⟩)
  · cases hnext

/-- What every step keeps, the whole fold keeps. -/
theorem foldlM_keeps {α β : Type} {P : β → Prop} {f : β → α → Option β} {as : List α}
    (hstep : ∀ a ∈ as, ∀ b b', P b → f b a = some b' → P b') {b b' : β} (hb : P b)
    (h : as.foldlM f b = some b') : P b' := by
  induction as generalizing b with
  | nil =>
      cases h
      exact hb
  | cons a as ih =>
      obtain ⟨ha, has⟩ := List.forall_mem_cons.mp hstep
      rw [List.foldlM_cons, Option.bind_eq_bind, Option.bind_eq_some_iff] at h
      obtain ⟨next, hnext, h⟩ := h
      exact ih has (ha b next hb hnext) h

/-! ## Documents -/

theorem yields_readValue? (depth : Nat) : Reader.Yields (readValue? depth) InRange := by
  induction depth with
  | zero => exact yields_readScalar?
  | succ depth ih =>
      intro cs t rest h
      unfold readValue? at h
      split at h
      · obtain ⟨⟨items, rest'⟩, hitems, heq⟩ := Option.map_eq_some_iff.mp h
        cases heq
        exact .array (yields_readItems? ih _ _ _ _ hitems)
      · split at h
        · cases h
          exact .table inRange_nil
        · simp only [Option.bind_eq_bind, Option.bind_eq_some_iff] at h
          obtain ⟨⟨pairs, rest'⟩, hpairs, members, hmembers, heq⟩ := h
          cases heq
          refine .table (foldlM_keeps (fun p hp ms ms' hms hput => ?_) inRange_nil hmembers)
          exact inRange_putAt (yields_readPairs? ih _ _ _ _ hpairs p hp) hms hput
      · exact yields_readScalar? _ _ _ h

/-- The value that the line gives, if it gives one, keeps to the range. -/
def Line.InRange : Line → Prop
  | .pair _ value => value.InRange
  | _ => True

theorem yields_readLine? : Reader.Yields readLine? Line.InRange := by
  intro cs line rest h
  unfold readLine? at h
  split at h
  · simp only [Option.bind_eq_bind, Option.bind_eq_some_iff] at h
    obtain ⟨⟨path, rest'⟩, -, after, -, after', -, heq⟩ := h
    cases heq
    exact trivial
  · simp only [Option.bind_eq_bind, Option.bind_eq_some_iff] at h
    obtain ⟨⟨path, rest'⟩, -, after, -, heq⟩ := h
    cases heq
    exact trivial
  · obtain ⟨⟨⟨path, value⟩, rest'⟩, hpair, heq⟩ := Option.map_eq_some_iff.mp h
    cases heq
    exact yields_readPair? (yields_readValue? maxDepth) _ _ _ hpair

theorem inRange_of_readLines? {fuel : Nat} {cs : List Char} {lines : List Line}
    (h : readLines? fuel cs = some lines) : ∀ line ∈ lines, line.InRange := by
  induction fuel generalizing cs lines with
  | zero => cases h
  | succ fuel ih =>
      rw [readLines?] at h
      split at h
      · cases h
        simp
      · split at h
        · obtain ⟨rest, -, h⟩ := Option.bind_eq_some_iff.mp h
          exact ih h
        · simp only [Option.bind_eq_bind, Option.bind_eq_some_iff] at h
          obtain ⟨⟨line, rest⟩, hline, rest', -, h⟩ := h
          obtain ⟨lines', hlines, rfl⟩ := Option.map_eq_some_iff.mp h
          exact List.forall_mem_cons.mpr ⟨yields_readLine? _ _ _ hline, ih hlines⟩

theorem inRange_add? {d d' : Draft} {line : Line} (hroot : d.root.InRange) (hline : line.InRange)
    (h : d.add? line = some d') : d'.root.InRange := by
  cases line with
  | pair path value =>
      obtain ⟨root, hwithin, rfl⟩ := Option.map_eq_some_iff.mp h
      exact inRange_within (fun ms ms' hms hput => inRange_putAt hline hms hput) hroot hwithin
  | header path =>
      obtain ⟨key, -, h⟩ := Option.bind_eq_some_iff.mp h
      obtain ⟨root, hwithin, rfl⟩ := Option.map_eq_some_iff.mp h
      exact inRange_within (fun ms ms' hms hopen => inRange_openTable hms hopen) hroot hwithin
  | nextHeader path =>
      obtain ⟨key, -, h⟩ := Option.bind_eq_some_iff.mp h
      obtain ⟨root, hwithin, rfl⟩ := Option.map_eq_some_iff.mp h
      exact inRange_within (fun ms ms' hms hopen => inRange_openNext hms hopen) hroot hwithin

/-- All integers of a document have 64 bits. -/
theorem inRange_of_parse? {text : String} {root : Members} (h : parse? text = some root) : root.InRange := by
  obtain ⟨lines, hlines, h⟩ := Option.bind_eq_some_iff.mp h
  obtain ⟨d, hfold, rfl⟩ := Option.map_eq_some_iff.mp h
  have hin := inRange_of_readLines? hlines
  exact foldlM_keeps (P := fun d : Draft => d.root.InRange)
    (fun line hline d d' hd hadd => inRange_add? hd (hin line hline) hadd) inRange_nil hfold

/-! ## Fields -/

theorem asNatBelow?_integer {n bound : Nat} (h : n < bound) : (Toml.integer n).asNatBelow? bound = some n := by
  have hbelow : (0 : Int) ≤ n ∧ (n : Int) < bound := by omega
  rw [asNatBelow?, if_pos hbelow, Int.toNat_natCast]

theorem inRange_of_fields? {names : List String} {t : Toml} {fields : List (Option Toml)} (ht : t.InRange)
    (h : t.fields? names = some fields) : ∀ o ∈ fields, ∀ u ∈ o, u.InRange := by
  intro o ho u hu
  cases ht with
  | text | integer | fraction | bool => cases h
  | moment =>
      cases h
      obtain ⟨name, -, rfl⟩ := List.mem_map.mp ho
      cases hu
  | table hms =>
      cases h
      obtain ⟨name, -, rfl⟩ := List.mem_map.mp ho
      exact inRange_of_lookup hms hu
  | array hitems =>
      cases h
      obtain ⟨i, -, rfl⟩ := List.mem_mapIdx.mp ho
      exact hitems u (List.mem_of_getElem? hu)
  | tables hitems =>
      cases h
      obtain ⟨i, -, rfl⟩ := List.mem_mapIdx.mp ho
      obtain ⟨ms, hms, rfl⟩ := Option.map_eq_some_iff.mp hu
      exact .table (hitems ms (List.mem_of_getElem? hms))

end EdgeFleet.Toml
