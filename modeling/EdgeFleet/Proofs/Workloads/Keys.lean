import EdgeFleet.Proofs.Workloads.Selection
import Mathlib.Data.List.Infix

/-! # Definitions that share a key

A definition is filed under the text of its namespace and name with `-fleetset-` between them. As both may
contain dashes, such a text can be read in several ways, and then one definition takes the place of another.
-/

namespace EdgeFleet

namespace WorkloadDefinition

/-! ## Reading a key -/

/-- What stands between namespace and name in a key. -/
def link : List Char := ['-', 'f', 'l', 'e', 'e', 't', 's', 'e', 't', '-']

theorem toList_link : "-fleetset-".toList = link := by
  decide +kernel

theorem toList_key (d : WorkloadDefinition) : d.key.toList = d.ns.toList ++ (link ++ d.name.toList) := by
  have hlink : "-".toList ++ "fleetset-".toList = link := by decide +kernel
  simp only [key, workloadKey, workloadName, String.toList_append, List.append_assoc, ← hlink]

/-- The link overlaps itself only in its dash. -/
theorem prefix_link_of_suffix : ∀ cs ∈ link.tails, cs <+: link → cs = [] ∨ cs = ['-'] ∨ cs = link := by
  decide +kernel

/-- The link occurs again in itself and what follows only behind itself or at its last dash. -/
theorem link_append_eq {cs xs ys : List Char} (h : link ++ xs = cs ++ (link ++ ys)) :
    cs = [] ∧ xs = ys ∨ cs = link.dropLast ∧ xs = link.tail ++ ys ∨
      ∃ mid, cs = link ++ mid ∧ xs = mid ++ (link ++ ys) := by
  rcases List.append_eq_append_iff.mp h with ⟨mid, hcs, hxs⟩ | ⟨rest, hlink, hrest⟩
  · exact .inr (.inr ⟨mid, hcs, hxs⟩)
  · have hsuffix : rest <:+ link := ⟨cs, hlink.symm⟩
    have hprefix : rest <+: link :=
      List.prefix_of_prefix_length_le ⟨xs, hrest.symm⟩ (List.prefix_append _ _) hsuffix.length_le
    rcases prefix_link_of_suffix rest ((List.mem_tails _ _).mpr hsuffix) hprefix with rfl | rfl | rfl
    · exact .inr (.inr ⟨[], by simp [hlink], hrest.symm⟩)
    · exact .inr (.inl ⟨List.append_cancel_right (hlink.symm.trans rfl), (List.cons.inj hrest).2.symm⟩)
    · have hcs : cs = [] := by simpa using hlink
      exact .inl ⟨hcs, (List.append_cancel_left hrest).symm⟩

/-- The namespace of `b` goes on where that of `a` ends, with the link that is to stand between them. -/
def Overlaps (a b : WorkloadDefinition) : Prop :=
  b.ns = a.ns ++ "-fleetset" ∧ a.name = "fleetset-" ++ b.name ∨
    ∃ mid, b.ns = a.ns ++ "-fleetset-" ++ mid ∧ a.name = mid ++ "-fleetset-" ++ b.name

theorem toList_dropLast_link : "-fleetset".toList = link.dropLast := by
  decide +kernel

theorem toList_tail_link : "fleetset-".toList = link.tail := by
  decide +kernel

theorem Overlaps.key_eq {a b : WorkloadDefinition} (h : a.Overlaps b) : a.key = b.key := by
  apply String.toList_inj.mp
  rw [toList_key, toList_key]
  rcases h with ⟨hns, hname⟩ | ⟨mid, hns, hname⟩
  · rw [hns, hname, String.toList_append, String.toList_append, toList_dropLast_link, toList_tail_link]
    simp [link]
  · simp only [hns, hname, String.toList_append, toList_link, List.append_assoc]

theorem of_link_append_eq {a b : WorkloadDefinition} {cs : List Char}
    (hns : b.ns.toList = a.ns.toList ++ cs)
    (hrest : link ++ a.name.toList = cs ++ (link ++ b.name.toList)) :
    a.ns = b.ns ∧ a.name = b.name ∨ a.Overlaps b := by
  rcases link_append_eq hrest with ⟨rfl, hname⟩ | ⟨rfl, hname⟩ | ⟨mid, rfl, hname⟩
  · refine .inl ⟨String.toList_inj.mp ?_, String.toList_inj.mp hname⟩
    rw [hns, List.append_nil]
  · refine .inr (.inl ⟨String.toList_inj.mp ?_, String.toList_inj.mp ?_⟩)
    · rw [hns, String.toList_append, toList_dropLast_link]
    · rw [hname, String.toList_append, toList_tail_link]
  · refine .inr (.inr ⟨String.ofList mid, String.toList_inj.mp ?_, String.toList_inj.mp ?_⟩)
    · simp only [hns, String.toList_append, toList_link, String.toList_ofList, List.append_assoc]
    · simp only [hname, String.toList_append, toList_link, String.toList_ofList, List.append_assoc]

theorem Overlaps.ns_ne {a b : WorkloadDefinition} (h : a.Overlaps b) : a.ns ≠ b.ns := by
  intro heq
  have hlength : b.ns.toList.length = a.ns.toList.length := by rw [heq]
  rcases h with ⟨hns, -⟩ | ⟨mid, hns, -⟩
  · rw [hns, String.toList_append, toList_dropLast_link] at hlength
    simp [link] at hlength
  · rw [hns, String.toList_append, String.toList_append, toList_link] at hlength
    simp [link] at hlength

/-- Two definitions have one key exactly when they agree in namespace and name or overlap. -/
theorem key_eq_iff (a b : WorkloadDefinition) :
    a.key = b.key ↔ a.ns = b.ns ∧ a.name = b.name ∨ a.Overlaps b ∨ b.Overlaps a := by
  constructor
  · intro h
    have hlist : a.ns.toList ++ (link ++ a.name.toList) = b.ns.toList ++ (link ++ b.name.toList) := by
      rw [← toList_key, ← toList_key, h]
    rcases List.append_eq_append_iff.mp hlist with ⟨cs, hns, hrest⟩ | ⟨cs, hns, hrest⟩
    · rcases of_link_append_eq hns hrest with hsame | hoverlaps
      · exact .inl hsame
      · exact .inr (.inl hoverlaps)
    · rcases of_link_append_eq hns hrest with ⟨hsame, hname⟩ | hoverlaps
      · exact .inl ⟨hsame.symm, hname.symm⟩
      · exact .inr (.inr hoverlaps)
  · rintro (⟨hns, hname⟩ | h | h)
    · rw [key, key, workloadName, workloadName, hns, hname]
    · exact h.key_eq
    · exact h.key_eq.symm

end WorkloadDefinition

namespace Desired

/-! ## What is held after a definition was added -/

/-- A definition is held exactly when it is filed under its own key. -/
theorem Consistent.mem_definitions_iff {d : Desired} (h : d.Consistent) (w : WorkloadDefinition) :
    w ∈ d.definitions.values ↔ d.definitions.get? w.key = some w := by
  rw [KeyMap.mem_values]
  constructor
  · rintro ⟨k, hk⟩
    rw [h.filed k w hk]
    exact hk
  · exact fun hw => ⟨w.key, hw⟩

theorem Consistent.eq_of_key_eq {d : Desired} (h : d.Consistent) {v w : WorkloadDefinition}
    (hv : v ∈ d.definitions.values) (hw : w ∈ d.definitions.values) (hkey : v.key = w.key) : v = w := by
  rw [h.mem_definitions_iff] at hv hw
  rw [hkey, hw] at hv
  exact (Option.some.inj hv).symm

/-- Definitions of other keys stay as they are. -/
theorem get?_define_of_ne (d : Desired) {w : WorkloadDefinition} {k : String} (h : k ≠ w.key)
    (now : Timestamp) : (d.define w now).2.definitions.get? k = d.definitions.get? k := by
  rw [define_definitions]
  split
  · rfl
  · rw [KeyMap.get?_insert, if_neg h]

/-- The new definition is held, unless there was one of its key and hash, which then stays. -/
theorem get?_define_self (d : Desired) (w : WorkloadDefinition) (now : Timestamp) :
    (d.define w now).2.definitions.get? w.key = some w ∨
      ∃ v, d.definitions.get? w.key = some v ∧ v.spec.hash = w.spec.hash ∧
        (d.define w now).2.definitions = d.definitions := by
  rw [define_definitions]
  split
  · next hsame =>
    obtain ⟨v, hv, hhash⟩ := (Option.any_eq_true _ _).mp hsame
    exact .inr ⟨v, hv, by simpa using hhash, rfl⟩
  · exact .inl (KeyMap.get?_insert_self ..)

/-- A definition that overlaps one that is held takes its place or is not added. -/
theorem Consistent.not_both_held {d : Desired} (h : d.Consistent) {v w : WorkloadDefinition}
    (hoverlaps : v.Overlaps w ∨ w.Overlaps v) :
    ¬(v ∈ d.definitions.values ∧ w ∈ d.definitions.values) := by
  rintro ⟨hv, hw⟩
  have hkey : v.key = w.key := hoverlaps.elim (·.key_eq) (·.key_eq.symm)
  obtain rfl := h.eq_of_key_eq hv hw hkey
  exact hoverlaps.elim (·.ns_ne rfl) (·.ns_ne rfl)

/-- A definition is added beside those of other namespaces and names exactly when it overlaps none of
them; specifications with one hash are taken to be equal. Every agent that is known has what is held and
selects it, one workload for each definition. -/
theorem define_independent_iff (ws : List WorkloadDefinition) (start : Timestamp) (cs : List Change)
    (w : WorkloadDefinition) (now : Timestamp)
    (hhash : ∀ v ∈ ((ofDefinitions ws start).changeAll cs).definitions.values,
      v.spec.hash = w.spec.hash → v.spec = w.spec) :
    let d := (ofDefinitions ws start).changeAll cs
    let d' := (d.define w now).2
    ((w ∈ d'.definitions.values ∧ ∀ v ∈ d.definitions.values, ¬(v.ns = w.ns ∧ v.name = w.name) →
        v ∈ d'.definitions.values) ↔
      ∀ v ∈ d.definitions.values, ¬v.Overlaps w ∧ ¬w.Overlaps v) ∧
    (∀ v ∈ d'.definitions.values, ∀ v' ∈ d'.definitions.values, v.key = v'.key → v = v') ∧
    ∀ agent given, lastLabels agent cs = some given → ∃ workloads, d'.workloads? agent = some workloads ∧
      ∀ v, workloads.get? v.key = some v ↔
        v ∈ d'.definitions.values ∧ v.spec.selects given = true := by
  intro d d'
  have hd : d.Consistent := (consistent_ofDefinitions ws start).changeAll cs
  have hd' : d'.Consistent := hd.define w now
  refine ⟨⟨?_, ?_⟩, fun v hv v' hv' => hd'.eq_of_key_eq hv hv', ?_⟩
  · rintro ⟨hw, hrest⟩ v hv
    rw [← not_or]
    intro hoverlaps
    have hne : ¬(v.ns = w.ns ∧ v.name = w.name) := fun hsame =>
      hoverlaps.elim (·.ns_ne hsame.1) (·.ns_ne hsame.1.symm)
    exact hd'.not_both_held hoverlaps ⟨hrest v hv hne, hw⟩
  · intro hfree
    have hsame : ∀ v ∈ d.definitions.values, v.key = w.key → v.ns = w.ns ∧ v.name = w.name := by
      intro v hv hkey
      rcases (v.key_eq_iff w).mp hkey with hsame | hoverlaps | hoverlaps
      · exact hsame
      · exact absurd hoverlaps (hfree v hv).1
      · exact absurd hoverlaps (hfree v hv).2
    refine ⟨(hd'.mem_definitions_iff w).mpr ?_, fun v hv hne => ?_⟩
    · rcases d.get?_define_self w now with hnew | ⟨v, hv, hequal, hdefs⟩
      · exact hnew
      · -- The definition of the same key and hash is this one.
        have hheld : v ∈ d.definitions.values := (KeyMap.mem_values _).mpr ⟨_, hv⟩
        obtain ⟨hns, hname⟩ := hsame v hheld (hd.filed _ v hv)
        have hvw : v = w := by
          cases v
          cases w
          cases hns
          cases hname
          cases hhash _ hheld hequal
          rfl
        rw [hdefs, hv, hvw]
    · rw [hd'.mem_definitions_iff, d.get?_define_of_ne (fun hkey => hne (hsame v hv hkey)) now]
      exact (hd.mem_definitions_iff v).mp hv
  · intro agent given hgiven
    have hlabels := labels_run ws start cs agent
    rw [hgiven, Option.map_eq_some_iff] at hlabels
    obtain ⟨a, ha, rfl⟩ := hlabels
    refine ⟨d'.selected a.labels, ?_, fun v => ?_⟩
    · rw [workloads?, define_agents hd, KeyMap.get?_map, ha]
      rfl
    · rw [get?_selected_eq_some, hd'.mem_definitions_iff]

/-- Two definitions of one name, of which both select an agent, in namespaces of which one begins with the
other. -/
theorem define_independent_iff_namespaces :
    let web : WorkloadDefinition := ⟨"web", "fleet", .ofImage "nginx"⟩
    let west : WorkloadDefinition := ⟨"web", "fleet-west", .ofImage "caddy"⟩
    let d := (ofDefinitions [web] .epoch).changeAll [.enroll "a" ∅]
    let d' := (d.define west .epoch).2
    web ∈ d'.definitions.values ∧ west ∈ d'.definitions.values ∧
      ∃ workloads, d'.workloads? "a" = some workloads ∧
        workloads.get? web.key = some web ∧ workloads.get? west.key = some west := by
  intro web west d d'
  have hvalues : d.definitions.values = [web] := by decide +kernel
  have hhash : ∀ v ∈ d.definitions.values, v.spec.hash = west.spec.hash → v.spec = west.spec := by
    rw [hvalues]
    decide +kernel
  obtain ⟨hiff, -, hagents⟩ := define_independent_iff [web] .epoch [.enroll "a" ∅] west .epoch hhash
  have hapart : ∀ v ∈ d.definitions.values, ¬v.Overlaps west ∧ ¬west.Overlaps v := by
    intro v hv
    rw [hvalues, List.mem_singleton] at hv
    subst hv
    have hkey : web.key ≠ west.key := by decide +kernel
    exact ⟨fun h => hkey h.key_eq, fun h => hkey h.key_eq.symm⟩
  obtain ⟨hwest, hrest⟩ := hiff.mpr hapart
  have hweb : web ∈ d'.definitions.values := hrest web (by simp [d, hvalues]) (by decide +kernel)
  obtain ⟨workloads, hworkloads, hmem⟩ := hagents "a" ∅ rfl
  exact ⟨hweb, hwest, workloads, hworkloads, (hmem web).mpr ⟨hweb, rfl⟩, (hmem west).mpr ⟨hwest, rfl⟩⟩

/-- A definition that is added can take the place of one with another namespace and name. -/
theorem define_not_independent :
    ¬∀ (ws : List WorkloadDefinition) (start : Timestamp) (cs : List Change) (w : WorkloadDefinition)
      (now : Timestamp),
      let d := (ofDefinitions ws start).changeAll cs
      let d' := (d.define w now).2
      (∀ v ∈ d.definitions.values, v.spec.hash = w.spec.hash → v.spec = w.spec) →
      w ∈ d'.definitions.values ∧
        ∀ v ∈ d.definitions.values, ¬(v.ns = w.ns ∧ v.name = w.name) → v ∈ d'.definitions.values := by
  intro h
  let v : WorkloadDefinition := ⟨"c", "a-fleetset-b", .ofImage "nginx"⟩
  let w : WorkloadDefinition := ⟨"b-fleetset-c", "a", .ofImage "caddy"⟩
  let d := (ofDefinitions [v] .epoch).changeAll []
  have hvalues : d.definitions.values = [v] := by decide +kernel
  have hhash : ∀ u ∈ d.definitions.values, u.spec.hash = w.spec.hash → u.spec = w.spec := by
    rw [hvalues]
    decide +kernel
  obtain ⟨hw, hrest⟩ := h [v] .epoch [] w .epoch hhash
  have hv := hrest v (by rw [hvalues]; exact List.mem_singleton_self v) (by decide +kernel)
  have hoverlaps : w.Overlaps v := .inr ⟨"b", by decide +kernel, by decide +kernel⟩
  exact ((consistent_ofDefinitions [v] .epoch).define w .epoch).not_both_held (.inr hoverlaps) ⟨hv, hw⟩

end Desired

end EdgeFleet
