import EdgeFleet.Fleet.Desired
import EdgeFleet.KeyMap.Lemmas
import Mathlib.Data.List.Induction

/-! # The desired workloads follow from definitions and labels

Every call updates the workloads of the agents in its own way. What they have in common is that an
agent ends up with exactly the definitions that its labels satisfy, so the calls could be replaced
by a selection made anew from the definitions held and the labels given last.
-/

namespace EdgeFleet

namespace WorkloadSpec

/-- An agent is selected when its labels hold every pair of the selector. -/
theorem selects_iff (spec : WorkloadSpec) (labels : KeyMap String) :
    spec.selects labels = true ↔
      ∀ k v, spec.nodeSelector.get? k = some v → labels.get? k = some v := by
  simp only [selects, List.all_eq_true, beq_iff_eq]
  constructor
  · intro h k v hkv
    exact h (k, v) (KeyMap.mem_toList _ |>.mpr hkv)
  · intro h e he
    exact h e.1 e.2 ((KeyMap.mem_toList _).mp he)

end WorkloadSpec

namespace Desired

/-! ## The invariant -/

/-- Definitions are filed under their own keys, and each agent has the workloads that its labels
select. -/
structure Consistent (d : Desired) : Prop where
  filed : ∀ k w, d.definitions.get? k = some w → w.key = k
  selected : ∀ agent a, d.agents.get? agent = some a → a.workloads = d.selected a.labels

theorem consistent_empty : empty.Consistent where
  filed := by simp [empty]
  selected := by simp [empty]

theorem get?_selected (d : Desired) (labels : KeyMap String) (k : String) :
    (d.selected labels).get? k =
      (d.definitions.get? k).filter fun w => w.spec.selects labels := by
  simp [Desired.selected]

theorem get?_selected_eq_some (d : Desired) (labels : KeyMap String) (k : String)
    (w : WorkloadDefinition) :
    (d.selected labels).get? k = some w ↔
      d.definitions.get? k = some w ∧ w.spec.selects labels = true := by
  rw [get?_selected, Option.filter_eq_some_iff]

/-- A selection is made from the definitions alone. -/
theorem selected_congr {d d' : Desired} (h : d.definitions = d'.definitions) :
    d.selected = d'.selected := by
  funext labels
  rw [Desired.selected, Desired.selected, h]

/-! ## Labels -/

/-- The update for new labels treats each definition on its own. -/
theorem get?_foldl_relabel (a : DesiredAgent) (labels : KeyMap String)
    (es : List (String × WorkloadDefinition)) (hes : (es.map (·.1)).Nodup)
    (ws : KeyMap WorkloadDefinition) (k : String) :
    (es.foldl (fun ws e =>
        if isAdded a labels e then ws.insert e.1 e.2
        else if e.2.spec.selects labels then ws
        else ws.erase e.1) ws).get? k =
      match es.lookup k with
      | none => ws.get? k
      | some w =>
        if isAdded a labels (k, w) then some w
        else if w.spec.selects labels then ws.get? k
        else none := by
  induction es generalizing ws with
  | nil => rfl
  | cons e es ih =>
      obtain ⟨k', w⟩ := e
      obtain ⟨hfresh, hes⟩ := List.nodup_cons.mp hes
      rw [List.foldl_cons, ih hes]
      by_cases hk : k = k'
      · subst hk
        have hnone : es.lookup k = none := by
          rw [List.lookup_eq_none_iff]
          intro e he
          simpa using fun heq : k = e.1 => hfresh (List.mem_map.mpr ⟨e, he, heq.symm⟩)
        rw [hnone, List.lookup_cons_self]
        simp only
        split
        · simp
        · split
          · rfl
          · simp [KeyMap.get?_erase]
      · have hstep : (if isAdded a labels (k', w) then ws.insert k' w
            else if w.spec.selects labels then ws else ws.erase k').get? k = ws.get? k := by
          split
          · exact ws.get?_insert_of_ne w hk
          · split
            · rfl
            · simp [KeyMap.get?_erase, hk]
        rw [lookup_cons_of_ne hk]
        simp only [hstep]

/-- An agent whose workloads are current has, after new labels, what those select. -/
theorem relabelled_eq_selected {d : Desired} {a : DesiredAgent}
    (h : a.workloads = d.selected a.labels) (labels : KeyMap String) :
    d.relabelled a labels = d.selected labels := by
  apply KeyMap.ext
  intro k
  have hcurrent : ∀ w, a.workloads.get? k = some w → d.definitions.get? k = some w := by
    intro w hw
    rw [h, get?_selected_eq_some] at hw
    exact hw.1
  rw [relabelled, get?_foldl_relabel a labels d.definitions.toList d.definitions.nodup_keys,
    get?_selected]
  change (match d.definitions.get? k with | none => _ | some w => _) = _
  cases hk : d.definitions.get? k with
  | none =>
      cases ha : a.workloads.get? k with
      | none => rfl
      | some w => simp [hk] at hcurrent; exact absurd ha (hcurrent w)
  | some w =>
      by_cases hw : w.spec.selects labels = true
      · cases ha : a.workloads.get? k with
        | none => simp [isAdded, hw, KeyMap.contains_eq, ha, Option.filter]
        | some w' =>
            have heq : w' = w := by
              have := hcurrent w' ha
              rw [hk] at this
              exact (Option.some.inj this).symm
            simp [isAdded, hw, KeyMap.contains_eq, ha, Option.filter, heq]
      · simp [isAdded, hw, Option.filter]

/-- Whatever was known of an agent, it now has the workloads that its labels select. -/
theorem enroll_snd {d : Desired} (h : d.Consistent) (agent : String) (labels : KeyMap String) :
    (d.enroll agent labels).2 =
      { d with agents := d.agents.insert agent ⟨labels, d.selected labels⟩ } := by
  rw [enroll]
  cases ha : d.agents.get? agent with
  | none => rfl
  | some a =>
      have hcurrent := h.selected agent a ha
      by_cases hl : a.labels = labels
      · have hentry : d.agents.get? agent = some ⟨labels, d.selected labels⟩ := by
          rw [ha, ← hl, ← hcurrent]
        rw [KeyMap.insert_of_get? _ hentry]
        simp only [hl, ite_true]
      · simp only [hl, ite_false, relabelled_eq_selected hcurrent]

/-! ## Definitions -/

/-- The agents of a consistent state are those with the same labels and a fresh selection. -/
theorem agents_reselected {d : Desired} (h : d.Consistent) :
    (d.agents.map fun _ a => ⟨a.labels, d.selected a.labels⟩) = d.agents := by
  apply KeyMap.ext
  intro agent
  rw [KeyMap.get?_map]
  cases ha : d.agents.get? agent with
  | none => rfl
  | some a => rw [Option.map_some, ← h.selected agent a ha]

/-- The definitions after one is added: nothing changes when the one of its key has its hash. -/
theorem define_definitions (d : Desired) (w : WorkloadDefinition) (now : Timestamp) :
    (d.define w now).2.definitions =
      if (d.definitions.get? w.key).any fun old => old.spec.hash = w.spec.hash then d.definitions
      else d.definitions.insert w.key w := by
  rw [define]
  split <;> rfl

/-- An agent takes a new definition in at its key, or gives up what it had there. -/
theorem defineFor_snd {d d' : Desired} {a : DesiredAgent} {w : WorkloadDefinition}
    (h : a.workloads = d.selected a.labels) (hd : d'.definitions = d.definitions.insert w.key w)
    (now : Timestamp) : (defineFor w.key w now a).2 = ⟨a.labels, d'.selected a.labels⟩ := by
  have hselected : ∀ k, (d'.selected a.labels).get? k =
      if k = w.key then (if w.spec.selects a.labels then some w else none)
      else a.workloads.get? k := by
    intro k
    rw [get?_selected, hd, KeyMap.get?_insert, h, get?_selected]
    by_cases hk : k = w.key
    · by_cases hw : w.spec.selects a.labels = true <;> simp [hk, hw, Option.filter]
    · simp [hk]
  rw [defineFor]
  split
  · next hw =>
    have hws : a.workloads.insert w.key w = d'.selected a.labels := by
      apply KeyMap.ext
      intro k
      rw [hselected, KeyMap.get?_insert, if_pos hw]
    rw [hws]
  · next hw =>
    have hws : a.workloads.erase w.key = d'.selected a.labels := by
      apply KeyMap.ext
      intro k
      rw [hselected, KeyMap.get?_erase, if_neg hw]
    rw [hws]

/-- Adding a definition leaves every agent its labels and makes its selection anew. -/
theorem define_agents {d : Desired} (h : d.Consistent) (w : WorkloadDefinition) (now : Timestamp) :
    (d.define w now).2.agents =
      d.agents.map fun _ a => ⟨a.labels, (d.define w now).2.selected a.labels⟩ := by
  by_cases hsame : ((d.definitions.get? w.key).any fun old => old.spec.hash = w.spec.hash) = true
  · rw [define, if_pos hsame]
    exact (agents_reselected h).symm
  · have hdefs : (d.define w now).2.definitions = d.definitions.insert w.key w := by
      rw [define_definitions, if_neg hsame]
    rw [define, if_neg hsame] at hdefs ⊢
    apply KeyMap.ext
    intro agent
    simp only [KeyMap.get?_map]
    cases ha : d.agents.get? agent with
    | none => rfl
    | some a =>
        rw [Option.map_some, Option.map_some, Option.map_some,
          defineFor_snd (h.selected agent a ha) hdefs]

/-- A definition that is dropped goes from the definitions and from every agent. -/
theorem retract_spec {d d' : Desired} {ns name : String} {now : Timestamp} {out : List Outbound}
    (hd : d.retract ns name now = some (out, d')) :
    ∃ key, d.keyOf? ns name = some key ∧ d'.definitions = d.definitions.erase key ∧
      d'.agents = d.agents.map fun _ a => { a with workloads := a.workloads.erase key } := by
  rw [retract, Option.map_eq_some_iff] at hd
  obtain ⟨key, hkey, heq⟩ := hd
  cases heq
  exact ⟨key, hkey, rfl, rfl⟩

theorem retract_agents {d d' : Desired} (h : d.Consistent) {ns name : String} {now : Timestamp}
    {out : List Outbound} (hd : d.retract ns name now = some (out, d')) :
    d'.agents = d.agents.map fun _ a => ⟨a.labels, d'.selected a.labels⟩ := by
  obtain ⟨key, -, hdefs, hagents⟩ := retract_spec hd
  rw [hagents]
  apply KeyMap.ext
  intro agent
  simp only [KeyMap.get?_map]
  cases ha : d.agents.get? agent with
  | none => rfl
  | some a =>
      simp only [Option.map_some, Option.some.injEq, DesiredAgent.mk.injEq, true_and]
      apply KeyMap.ext
      intro k
      rw [h.selected agent a ha, KeyMap.get?_erase, get?_selected, get?_selected, hdefs,
        KeyMap.get?_erase]
      split <;> rfl

/-! ## Every call keeps the invariant -/

/-- A state whose agents have the selection of its own definitions is consistent. -/
theorem Consistent.of_reselected {d : Desired} {agents : KeyMap DesiredAgent}
    (hfiled : ∀ k w, d.definitions.get? k = some w → w.key = k)
    (h : d.agents = agents.map fun _ a => ⟨a.labels, d.selected a.labels⟩) : d.Consistent where
  filed := hfiled
  selected := by
    intro agent a ha
    rw [h, KeyMap.get?_map, Option.map_eq_some_iff] at ha
    obtain ⟨b, -, rfl⟩ := ha
    rfl

theorem Consistent.enroll {d : Desired} (h : d.Consistent) (agent : String)
    (labels : KeyMap String) : (d.enroll agent labels).2.Consistent := by
  rw [enroll_snd h]
  refine ⟨h.filed, ?_⟩
  intro other a ha
  rw [KeyMap.get?_insert] at ha
  split at ha
  · cases ha
    rfl
  · exact h.selected other a ha

theorem Consistent.define {d : Desired} (h : d.Consistent) (w : WorkloadDefinition)
    (now : Timestamp) : (d.define w now).2.Consistent := by
  refine .of_reselected ?_ (define_agents h w now)
  intro k v hv
  rw [define_definitions] at hv
  split at hv
  · exact h.filed k v hv
  · rw [KeyMap.get?_insert] at hv
    split at hv
    · next hk =>
      cases hv
      exact hk.symm
    · exact h.filed k v hv

theorem Consistent.retract {d d' : Desired} (h : d.Consistent) {ns name : String}
    {now : Timestamp} {out : List Outbound} (hd : d.retract ns name now = some (out, d')) :
    d'.Consistent := by
  refine .of_reselected ?_ (retract_agents h hd)
  intro k v hv
  obtain ⟨key, -, hdefs, -⟩ := retract_spec hd
  rw [hdefs, KeyMap.get?_erase] at hv
  split at hv
  · cases hv
  · exact h.filed k v hv

theorem consistent_ofDefinitions (ws : List WorkloadDefinition) (now : Timestamp) :
    (ofDefinitions ws now).Consistent := by
  suffices h : ∀ d : Desired, d.Consistent →
      (ws.foldl (fun d w => (d.define w now).2) d).Consistent from h empty consistent_empty
  induction ws with
  | nil => exact fun _ hd => hd
  | cons w ws ih => exact fun d hd => ih _ (hd.define w now)

/-! ## Runs -/

/-- A call that may change what the agents are to run. -/
inductive Change where
  | define (w : WorkloadDefinition) (now : Timestamp)
  | retract (ns name : String) (now : Timestamp)
  | enroll (agent : String) (labels : KeyMap String)

/-- The state after a call. Dropping what is not held changes nothing. -/
def change (d : Desired) : Change → Desired
  | .define w now => (d.define w now).2
  | .retract ns name now => ((d.retract ns name now).map (·.2)).getD d
  | .enroll agent labels => (d.enroll agent labels).2

def changeAll (d : Desired) (cs : List Change) : Desired := cs.foldl change d

/-- The labels that a call gives an agent. -/
def Change.labelsFor? (agent : String) : Change → Option (KeyMap String)
  | .enroll agent' labels => if agent' = agent then some labels else none
  | _ => none

/-- The labels that an agent was given last. -/
def lastLabels (agent : String) (cs : List Change) : Option (KeyMap String) :=
  cs.reverse.findSome? (·.labelsFor? agent)

theorem lastLabels_append (agent : String) (cs : List Change) (c : Change) :
    lastLabels agent (cs ++ [c]) = (c.labelsFor? agent).or (lastLabels agent cs) := by
  rw [lastLabels, List.reverse_append, List.reverse_singleton, List.singleton_append,
    List.findSome?_cons]
  cases c.labelsFor? agent <;> rfl

theorem Consistent.change {d : Desired} (h : d.Consistent) (c : Change) : (d.change c).Consistent := by
  cases c with
  | define w now => exact h.define w now
  | enroll agent labels => exact h.enroll agent labels
  | retract ns name now =>
      rw [Desired.change]
      cases hd : d.retract ns name now with
      | none => exact h
      | some r => exact h.retract hd

theorem Consistent.changeAll {d : Desired} (h : d.Consistent) (cs : List Change) :
    (d.changeAll cs).Consistent := by
  induction cs generalizing d with
  | nil => exact h
  | cons c cs ih => exact ih (h.change c)

/-- Only an enrolment changes labels, and only those of its agent. -/
theorem labels_change {d : Desired} (h : d.Consistent) (c : Change) (agent : String) :
    ((d.change c).agents.get? agent).map (·.labels) =
      (c.labelsFor? agent).or ((d.agents.get? agent).map (·.labels)) := by
  cases c with
  | define w now =>
      rw [Desired.change, define_agents h, KeyMap.get?_map, Option.map_map]
      rfl
  | enroll agent' labels =>
      rw [Desired.change, enroll_snd h, KeyMap.get?_insert, Change.labelsFor?]
      by_cases ha : agent = agent'
      · simp [ha]
      · simp [ha, Ne.symm ha]
  | retract ns name now =>
      rw [Desired.change]
      cases hd : d.retract ns name now with
      | none => rfl
      | some r =>
          obtain ⟨key, -, -, hagents⟩ := retract_spec hd
          simp only [Option.map_some, Option.getD_some, hagents, KeyMap.get?_map, Option.map_map]
          rfl

theorem labels_changeAll {d : Desired} (h : d.Consistent) (cs : List Change) (agent : String) :
    ((d.changeAll cs).agents.get? agent).map (·.labels) =
      (lastLabels agent cs).or ((d.agents.get? agent).map (·.labels)) := by
  induction cs using List.reverseRecOn with
  | nil => rfl
  | append_singleton cs c ih =>
      rw [changeAll, List.foldl_append, List.foldl_cons, List.foldl_nil]
      change ((Desired.change (d.changeAll cs) c).agents.get? agent).map _ = _
      rw [labels_change (h.changeAll cs), ih, lastLabels_append, Option.or_assoc]

/-! ## What the agents are to run -/

/-- The workloads of every agent are a function of the definitions held and of the agent's labels:
nothing else is known, nothing is missing, and nothing is left from earlier definitions or labels. -/
structure Derived (d : Desired) (labels : String → Option (KeyMap String)) : Prop where
  known : ∀ agent, d.knows agent = (labels agent).isSome
  workloads : ∀ agent, d.workloads? agent = (labels agent).map d.selected
  selected : ∀ given key w, (d.selected given).get? key = some w ↔
    d.definitions.get? key = some w ∧ w.key = key ∧
      ∀ k v, w.spec.nodeSelector.get? k = some v → given.get? k = some v
  commands : ∀ agent, d.commands agent = ((labels agent).map fun given =>
    (d.selected given).values.map fun w =>
      ⟨w.spec.hash, "fleetset-" ++ w.name, w.ns, some w.spec, none⟩).getD []
  targets : d.targets = d.definitions.toList.map fun e =>
    ⟨e.1, e.2, d.agents.keys.countP fun agent => (labels agent).any e.2.spec.selects⟩

/-- A consistent state is derived from the labels that it holds. -/
theorem Consistent.derived {d : Desired} (h : d.Consistent) {labels : String → Option (KeyMap String)}
    (hl : ∀ agent, (d.agents.get? agent).map (·.labels) = labels agent) : d.Derived labels where
  known := by
    intro agent
    rw [← hl, Option.isSome_map]
    rfl
  workloads := by
    intro agent
    rw [← hl, workloads?]
    cases ha : d.agents.get? agent with
    | none => rfl
    | some a => simp [h.selected agent a ha]
  selected := by
    intro given key w
    rw [get?_selected_eq_some, WorkloadSpec.selects_iff]
    constructor
    · rintro ⟨hw, hs⟩
      exact ⟨hw, h.filed key w hw, hs⟩
    · rintro ⟨hw, -, hs⟩
      exact ⟨hw, hs⟩
  commands := by
    intro agent
    rw [← hl, commands]
    cases ha : d.agents.get? agent with
    | none => rfl
    | some a =>
        simp only [h.selected agent a ha]
        rfl
  targets := by
    rw [targets]
    apply List.map_congr_left
    intro e he
    have hmem : d.definitions.get? e.1 = some e.2 := (KeyMap.mem_toList _).mp he
    have hcount : d.agents.values.countP (fun a => a.workloads.contains e.1) =
        d.agents.keys.countP fun agent => (labels agent).any e.2.spec.selects := by
      rw [KeyMap.values, KeyMap.keys, List.countP_map, List.countP_map]
      apply List.countP_congr
      intro b hb
      have hb : d.agents.get? b.1 = some b.2 := (KeyMap.mem_toList _).mp hb
      have hlabels : labels b.1 = some b.2.labels := by rw [← hl, hb, Option.map_some]
      simp only [Function.comp_apply, hlabels, Option.any_some, KeyMap.contains_eq,
        h.selected b.1 b.2 hb, get?_selected, hmem]
      cases hs : e.2.spec.selects b.2.labels <;> simp [Option.filter, hs]
    rw [hcount]

/-- A consistent state is determined by its definitions and the labels that it holds. -/
theorem Consistent.eq {d d' : Desired} (h : d.Consistent) (h' : d'.Consistent)
    (hd : d.definitions = d'.definitions)
    (hl : ∀ agent, (d.agents.get? agent).map (·.labels) = (d'.agents.get? agent).map (·.labels)) :
    d = d' := by
  have hagents : d.agents = d'.agents := by
    rw [← agents_reselected h, ← agents_reselected h', selected_congr hd]
    apply KeyMap.ext
    intro agent
    rw [KeyMap.get?_map, KeyMap.get?_map]
    have hfactor : ∀ o : Option DesiredAgent,
        (o.map fun a => (⟨a.labels, d'.selected a.labels⟩ : DesiredAgent)) =
          (o.map (·.labels)).map fun l => ⟨l, d'.selected l⟩ := by
      intro o
      cases o <;> rfl
    rw [hfactor, hfactor, hl]
  cases d
  cases d'
  cases hd
  cases hagents
  rfl

theorem labels_ofDefinitions (ws : List WorkloadDefinition) (now : Timestamp) (agent : String) :
    (ofDefinitions ws now).agents.get? agent = none := by
  suffices h : ∀ d : Desired, d.Consistent → d.agents.get? agent = none →
      (ws.foldl (fun d w => (d.define w now).2) d).agents.get? agent = none from
    h empty consistent_empty rfl
  induction ws with
  | nil => exact fun _ _ hd => hd
  | cons w ws ih =>
      intro d hc hd
      refine ih _ (hc.define w now) ?_
      rw [define_agents hc, KeyMap.get?_map, hd, Option.map_none]

/-- The labels after a run are those given last. -/
theorem labels_run (ws : List WorkloadDefinition) (now : Timestamp) (cs : List Change)
    (agent : String) :
    (((ofDefinitions ws now).changeAll cs).agents.get? agent).map (·.labels) =
      lastLabels agent cs := by
  rw [labels_changeAll (consistent_ofDefinitions ws now), labels_ofDefinitions, Option.map_none,
    Option.or_none]

/-- After any definitions to begin with and any calls in any order, the workloads of the agents are
those that the definitions held and the labels given last select. Runs that end with the same
definitions and labels therefore end in the same state. -/
theorem derived_changeAll (ws : List WorkloadDefinition) (now : Timestamp) (cs : List Change) :
    ((ofDefinitions ws now).changeAll cs).Derived (lastLabels · cs) ∧
      ∀ (ws' : List WorkloadDefinition) (now' : Timestamp) (cs' : List Change),
        ((ofDefinitions ws now).changeAll cs).definitions =
            ((ofDefinitions ws' now').changeAll cs').definitions →
        (∀ agent, lastLabels agent cs = lastLabels agent cs') →
        (ofDefinitions ws now).changeAll cs = (ofDefinitions ws' now').changeAll cs' := by
  have hconsistent : ∀ ws now cs, ((ofDefinitions ws now).changeAll cs).Consistent :=
    fun ws now cs => (consistent_ofDefinitions ws now).changeAll cs
  refine ⟨(hconsistent ws now cs).derived (labels_run ws now cs), ?_⟩
  intro ws' now' cs' hdefs hlabels
  refine (hconsistent ws now cs).eq (hconsistent ws' now' cs') hdefs ?_
  intro agent
  rw [labels_run, labels_run, hlabels]

end Desired

end EdgeFleet
