import EdgeFleet.Proofs.Workloads.Convergence

/-! # Changed definitions are pushed to the agents

A new, changed or dropped definition concerns one key. Each agent whose workloads change there is
sent the one command that makes the same change where the workloads run, so an agent that ran what
was desired of it runs what is desired now, and no report is needed in between.
-/

namespace EdgeFleet

/-- A desired workload as it runs on an agent. -/
def WorkloadDefinition.running (w : WorkloadDefinition) : LocalWorkload :=
  ⟨w.spec.hash, w.workloadName, w.ns, some w.spec⟩

/-- What is desired runs and nothing else: the same keys, and under each the desired hash, name,
namespace and specification. -/
def LocalWorkloads.Runs (ws : LocalWorkloads) (desired : KeyMap WorkloadDefinition) : Prop :=
  ∀ k, ws.get? k = (desired.get? k).map (·.running)

theorem LocalWorkloads.runs_iff (ws : LocalWorkloads) (desired : KeyMap WorkloadDefinition) :
    ws.byKey = desired.map (fun _ w => w.running) ↔ ws.Runs desired := by
  constructor
  · intro h k
    rw [get?, h, KeyMap.get?_map]
  · intro h
    apply KeyMap.ext
    intro k
    rw [KeyMap.get?_map]
    exact h k

instance (ws : LocalWorkloads) (desired : KeyMap WorkloadDefinition) : Decidable (ws.Runs desired) :=
  decidable_of_iff _ (ws.runs_iff desired)

namespace Desired

/-! ## The commands for one agent -/

def addressed (agent : String) (out : List Outbound) : List WorkloadCommand :=
  (out.filter fun o => o.1 = agent).map (·.2)

/-- When each agent is sent at most one command, an agent is addressed by its own alone. -/
theorem addressed_filterMap {α : Type} (m : KeyMap α) (command : α → Option WorkloadCommand)
    (agent : String) :
    addressed agent (m.toList.filterMap fun e => (command e.2).map (e.1, ·)) =
      ((m.get? agent).bind command).toList := by
  change _ = ((m.toList.lookup agent).bind command).toList
  have hascending : Ascending m.toList := m.ascending
  generalize m.toList = es at hascending
  induction es with
  | nil => rfl
  | cons e es ih =>
      obtain ⟨name, a⟩ := e
      have hrest := ih hascending.of_cons
      by_cases hname : agent = name
      · subst hname
        rw [hascending.lookup_tail] at hrest
        rw [List.lookup_cons_self]
        cases hc : command a with
        | none => simpa [hc] using hrest
        | some c => simpa [hc, addressed] using hrest
      · rw [lookup_cons_of_ne hname, ← hrest]
        cases hc : command a with
        | none => simp [hc]
        | some c => simp [hc, addressed, Ne.symm hname]

/-! ## A push to one agent -/

/-- What a change at one key means for the workloads of an agent, with the command it is sent. -/
inductive Push (key : String) (before : KeyMap WorkloadDefinition) :
    KeyMap WorkloadDefinition → Option WorkloadCommand → Prop where
  | sync (w) (hkey : w.key = key) (hnew : before.get? key ≠ some w) :
      Push key before (before.insert key w) (some w.syncCommand)
  | delete (w now) (hkey : w.key = key) (hold : before.get? key = some w) :
      Push key before (before.erase key) (some (w.deleteCommand now))
  | none : Push key before before none

namespace Push

variable {key : String} {before after : KeyMap WorkloadDefinition} {sent : Option WorkloadCommand}

/-- An agent is told to give up what it has under the key, if anything. -/
theorem give_up (hfiled : ∀ old, before.get? key = some old → old.key = key) (now : Timestamp) :
    Push key before (before.erase key) ((before.get? key).map (·.deleteCommand now)) := by
  cases hold : before.get? key with
  | some old => exact .delete old now (hfiled old hold) hold
  | none =>
      rw [before.erase_of_get? hold]
      exact .none

/-- The command makes the change where the workloads run. -/
theorem runs (h : Push key before after sent) {ws : LocalWorkloads} (hws : ws.Runs before) :
    (ws.applyAll sent.toList).Runs after := by
  intro k
  cases h with
  | none => exact hws k
  | sync w hkey hnew =>
      have hsent : w.syncCommand.key = key := hkey
      change (ws.apply w.syncCommand).2.get? k = _
      rw [LocalWorkloads.get?_apply, hsent, KeyMap.get?_insert, hws k]
      split <;> rfl
  | delete w now hkey hold =>
      have hsent : (w.deleteCommand now).key = key := hkey
      change (ws.apply (w.deleteCommand now)).2.get? k = _
      rw [LocalWorkloads.get?_apply, hsent, KeyMap.get?_erase, hws k]
      split <;> rfl

/-- There is a command exactly when the workload under the key is another one than before. -/
theorem length_sent (h : Push key before after sent) :
    sent.toList.length = if after.get? key = before.get? key then 0 else 1 := by
  cases h with
  | none => simp
  | sync w hkey hnew => simp [Ne.symm hnew]
  | delete w now hkey hold => simp [KeyMap.get?_erase, hold]

theorem elsewhere (h : Push key before after sent) {k : String} (hk : k ≠ key) :
    after.get? k = before.get? k := by
  cases h with
  | none => rfl
  | sync w hkey hnew => exact before.get?_insert_of_ne w hk
  | delete w now hkey hold => rw [KeyMap.get?_erase, if_neg hk]

end Push

/-! ## A push to all agents -/

/-- The workload that an agent is to run under a key. -/
def workloadAt? (d : Desired) (agent key : String) : Option WorkloadDefinition :=
  (d.workloads? agent).bind (·.get? key)

theorem workloads?_of_get? {d : Desired} {agent : String} {a : DesiredAgent}
    (h : d.agents.get? agent = some a) : d.workloads? agent = some a.workloads := by
  rw [workloads?, h, Option.map_some]

/-- Every known agent runs what is desired of it. -/
def InStep (d : Desired) (running : String → LocalWorkloads) : Prop :=
  ∀ agent desired, d.workloads? agent = some desired → (running agent).Runs desired

theorem inStep_iff (d : Desired) (running : String → LocalWorkloads) :
    (∀ e ∈ d.agents.toList, (running e.1).Runs e.2.workloads) ↔ d.InStep running := by
  constructor
  · intro h agent desired hdesired
    rw [workloads?, Option.map_eq_some_iff] at hdesired
    obtain ⟨a, ha, rfl⟩ := hdesired
    exact h (agent, a) ((KeyMap.mem_toList _).mpr ha)
  · intro h e he
    have ha : d.agents.get? e.1 = some e.2 := (KeyMap.mem_toList _).mp he
    exact h e.1 e.2.workloads (workloads?_of_get? ha)

instance (d : Desired) (running : String → LocalWorkloads) : Decidable (d.InStep running) :=
  decidable_of_iff _ (d.inStep_iff running)

/-- What runs on the agents after each has applied the commands addressed to it. -/
def deliver (running : String → LocalWorkloads) (out : List Outbound) (agent : String) :
    LocalWorkloads :=
  (running agent).applyAll (addressed agent out)

/-- The commands of a change at one key, sent to the agents of a fleet. The agents stay the same; one
is sent a single command when its workload there becomes another one, appears or goes, and none when
it stays; all its other workloads stay, and with the commands it runs what is desired then. -/
structure Pushed (running : String → LocalWorkloads) (key : String) (d : Desired)
    (out : List Outbound) (d' : Desired) : Prop where
  known : ∀ agent, d'.knows agent = d.knows agent
  sent : ∀ agent, (addressed agent out).length =
    if d'.workloadAt? agent key = d.workloadAt? agent key then 0 else 1
  elsewhere : ∀ agent k, k ≠ key → d'.workloadAt? agent k = d.workloadAt? agent k
  inStep : d'.InStep (deliver running out)

section

variable {running : String → LocalWorkloads} {d : Desired}

/-- It is enough to see what the change is for each agent on its own. -/
theorem Pushed.of_agents (hrunning : d.InStep running) {d' : Desired} {key : String}
    {out : List Outbound} (change : DesiredAgent → Option WorkloadCommand × DesiredAgent)
    (hagents : d'.agents = d.agents.map fun _ a => (change a).2)
    (hsent : ∀ agent, addressed agent out = ((d.agents.get? agent).bind (change · |>.1)).toList)
    (hpush : ∀ agent a, d.agents.get? agent = some a →
      Push key a.workloads (change a).2.workloads (change a).1) : Pushed running key d out d' where
  known := by
    intro agent
    rw [knows, knows, KeyMap.contains_eq, KeyMap.contains_eq, hagents, KeyMap.get?_map,
      Option.isSome_map]
  sent := by
    intro agent
    rw [hsent, workloadAt?, workloadAt?, workloads?, workloads?, hagents, KeyMap.get?_map]
    cases ha : d.agents.get? agent with
    | none => rfl
    | some a => exact (hpush agent a ha).length_sent
  elsewhere := by
    intro agent k hk
    rw [workloadAt?, workloadAt?, workloads?, workloads?, hagents, KeyMap.get?_map]
    cases ha : d.agents.get? agent with
    | none => rfl
    | some a => exact (hpush agent a ha).elsewhere hk
  inStep := by
    intro agent desired hdesired
    rw [workloads?, hagents, KeyMap.get?_map, Option.map_map, Option.map_eq_some_iff] at hdesired
    obtain ⟨a, ha, rfl⟩ := hdesired
    rw [deliver, hsent, ha]
    exact (hpush agent a ha).runs (hrunning agent a.workloads (workloads?_of_get? ha))

theorem Pushed.refl (hrunning : d.InStep running) (key : String) : Pushed running key d [] d := by
  refine .of_agents hrunning (fun a => (none, a)) ?_ ?_ fun _ _ _ => .none
  · apply KeyMap.ext
    intro agent
    rw [KeyMap.get?_map, Option.map_id']
  · intro agent
    cases d.agents.get? agent <;> rfl

/-! ## Definitions that are added, changed and dropped -/

theorem Consistent.pushed_define (h : d.Consistent) (hrunning : d.InStep running)
    (w : WorkloadDefinition) (now : Timestamp) :
    Pushed running w.key d (d.define w now).1 (d.define w now).2 := by
  rw [Desired.define]
  split
  · exact .refl hrunning w.key
  · next hchanged =>
    refine .of_agents hrunning (defineFor w.key w now) ?_ ?_ ?_
    · apply KeyMap.ext
      intro agent
      simp only [KeyMap.get?_map, Option.map_map]
      rfl
    · intro agent
      rw [addressed_filterMap, KeyMap.get?_map]
      cases d.agents.get? agent <;> rfl
    · intro agent a ha
      rw [defineFor]
      split
      · refine .sync w rfl ?_
        -- An agent that had the definition already would have it from the definitions held.
        intro hsame
        rw [h.selected agent a ha, get?_selected_eq_some] at hsame
        simp [hsame.1] at hchanged
      · exact .give_up (fun old => h.workloads_filed (workloads?_of_get? ha) w.key old) now

/-- The key that a definition is dropped at is that of its namespace and name. -/
theorem keyOf?_eq_some {d : Desired} {ns name key : String} (h : d.keyOf? ns name = some key) :
    key = workloadKey ns ("fleetset-" ++ name) := by
  rw [keyOf?, Option.map_eq_some_iff] at h
  obtain ⟨w, hw, rfl⟩ := h
  have hfound := List.find?_some hw
  simp only [decide_eq_true_eq] at hfound
  obtain ⟨rfl, rfl⟩ := hfound
  rfl

theorem Consistent.pushed_retract (h : d.Consistent) (hrunning : d.InStep running)
    (ns name : String) (now : Timestamp) :
    let r := (d.retract ns name now).getD ([], d)
    Pushed running (workloadKey ns ("fleetset-" ++ name)) d r.1 r.2 := by
  rw [Desired.retract]
  cases hkey : d.keyOf? ns name with
  | none => exact .refl hrunning _
  | some key =>
      rw [← keyOf?_eq_some hkey]
      refine .of_agents hrunning (fun a => ((a.workloads.get? key).map (·.deleteCommand now),
        { a with workloads := a.workloads.erase key })) rfl ?_ ?_
      · intro agent
        have hsent := addressed_filterMap d.agents
          (fun a => (a.workloads.get? key).map (·.deleteCommand now)) agent
        simp only [Option.map_map] at hsent
        exact hsent
      · intro agent a ha
        exact .give_up (fun old => h.workloads_filed (workloads?_of_get? ha) key old) now

/-- An edit of the definitions. -/
inductive Edit where
  | define (w : WorkloadDefinition) (now : Timestamp)
  | retract (ns name : String) (now : Timestamp)

/-- The key that an edit concerns. -/
def Edit.key : Edit → String
  | .define w _ => w.key
  | .retract ns name _ => workloadKey ns ("fleetset-" ++ name)

/-- The commands of an edit and the state after it. To drop what is not held does nothing. -/
def edit (d : Desired) : Edit → List Outbound × Desired
  | .define w now => d.define w now
  | .retract ns name now => (d.retract ns name now).getD ([], d)

theorem Consistent.pushed_edit (h : d.Consistent) (hrunning : d.InStep running) (e : Edit) :
    Pushed running e.key d (d.edit e).1 (d.edit e).2 := by
  cases e with
  | define w now => exact h.pushed_define hrunning w now
  | retract ns name now => exact h.pushed_retract hrunning ns name now

theorem Consistent.edit (h : d.Consistent) (e : Edit) : (d.edit e).2.Consistent := by
  cases e with
  | define w now => exact h.define w now
  | retract ns name now =>
      rw [Desired.edit]
      cases hd : d.retract ns name now with
      | none => exact h
      | some r => exact h.retract hd

end

/-- After a definition is applied, one with its hash is held under its key. -/
theorem define_again (d : Desired) (w : WorkloadDefinition) (now later : Timestamp) :
    (d.define w now).2.define w later = ([], (d.define w now).2) := by
  have hheld : ((d.define w now).2.definitions.get? w.key).any
      (fun old => old.spec.hash = w.spec.hash) = true := by
    rw [define_definitions]
    split
    · next hsame => exact hsame
    · simp
  rw [Desired.define, if_pos hheld]

/-! ## Runs -/

/-- One edit after the other, with the commands of each delivered before the next. -/
def editAll (d : Desired) (running : String → LocalWorkloads) (es : List Edit) :
    Desired × (String → LocalWorkloads) :=
  es.foldl (fun s e => ((s.1.edit e).2, deliver s.2 (s.1.edit e).1)) (d, running)

/-- Agents that are in step stay so through any series of edits. -/
theorem Consistent.inStep_editAll {d : Desired} (h : d.Consistent)
    {running : String → LocalWorkloads} (hrunning : d.InStep running) (es : List Edit) :
    (d.editAll running es).1.InStep (d.editAll running es).2 := by
  induction es generalizing d running with
  | nil => exact hrunning
  | cons e es ih => exact ih (h.edit e) (h.pushed_edit hrunning e).inStep

/-- Whatever definitions and labels came before, when the agents run what is desired of them an edit
of the definitions keeps them in step by the commands addressed to each, and so does any series of edits. A
definition that was just applied sends nothing and changes nothing when it is applied again. -/
theorem edits_keep_in_step (ws : List WorkloadDefinition) (start : Timestamp) (cs : List Change)
    {running : String → LocalWorkloads}
    (hrunning : ((ofDefinitions ws start).changeAll cs).InStep running) :
    let d := (ofDefinitions ws start).changeAll cs
    (∀ e, Pushed running e.key d (d.edit e).1 (d.edit e).2) ∧
      (∀ es, (d.editAll running es).1.InStep (d.editAll running es).2) ∧
      ∀ w now later, (d.define w now).2.define w later = ([], (d.define w now).2) := by
  intro d
  have hconsistent : d.Consistent := (consistent_ofDefinitions ws start).changeAll cs
  exact ⟨hconsistent.pushed_edit hrunning, hconsistent.inStep_editAll hrunning, define_again d⟩

/-- Agents `a` and `b` run `web`, agent `c` does not. The definition moves to the zone of `b` and `c`:
`a` is told to delete it, `b` gets the new one for the old, and `c` gets it for the first time. -/
theorem edits_keep_in_step_moved :
    let web : WorkloadDefinition := ⟨"web", "fleet", ⟨"nginx", [], ∅, KeyMap.ofList [("rack", "1")]⟩⟩
    let moved : WorkloadDefinition := ⟨"web", "fleet", ⟨"nginx", [], ∅, KeyMap.ofList [("zone", "z")]⟩⟩
    let cs : List Change := [.enroll "a" (KeyMap.ofList [("rack", "1")]),
      .enroll "b" (KeyMap.ofList [("rack", "1"), ("zone", "z")]),
      .enroll "c" (KeyMap.ofList [("zone", "z")])]
    let d := (ofDefinitions [web] .epoch).changeAll cs
    let running := fun agent : String =>
      if agent = "a" ∨ agent = "b" then LocalWorkloads.empty.applyAll [web.syncCommand] else .empty
    let r := d.edit (.define moved .epoch)
    d.InStep running ∧ Pushed running web.key d r.1 r.2 ∧
      ["a", "b", "c", "d"].map (addressed · r.1) =
        [[web.deleteCommand .epoch], [moved.syncCommand], [moved.syncCommand], []] := by
  intro web moved cs d running r
  have hrunning : d.InStep running := by decide +kernel
  refine ⟨hrunning, ?_, by decide +kernel⟩
  exact (edits_keep_in_step [web] .epoch cs hrunning).1 (.define moved .epoch)

end Desired

end EdgeFleet
