import EdgeFleet.Proofs.Agent.Correlation
import EdgeFleet.Proofs.Agent.Inbound
import EdgeFleet.Proofs.Workloads.Local

/-! # What an agent takes in

Of the messages that come to an agent, the acknowledgements on its control topic go into its store, and of
the commands on its data topic the last one for a key counts. All other messages leave it as it is.
-/

namespace EdgeFleet

/-! ## Topics -/

namespace Topic

theorem toList_control (agent : String) : (control agent).toList = ['c', 't', 'l'] ++ '/' :: agent.toList := by
  rw [control, String.toList_append]
  rfl

theorem toList_data (agent : String) : (data agent).toList = ['d', 'a', 't', 'a'] ++ '/' :: agent.toList := by
  rw [data, String.toList_append]
  rfl

theorem data_injective {agent agent' : String} (h : data agent = data agent') : agent = agent' := by
  have hlist := congrArg String.toList h
  rw [toList_data, toList_data] at hlist
  exact String.toList_inj.mp (List.cons.inj (List.append_cancel_left hlist)).2

theorem data_ne_control (agent agent' : String) : data agent ≠ control agent' := by
  intro h
  have hlist := congrArg String.toList h
  rw [toList_control, toList_data] at hlist
  exact absurd (List.cons.inj hlist).1 (by decide)

theorem eq_of_splitSlash? {cs front back : List Char} (h : splitSlash? cs = some (front, back)) :
    cs = front ++ '/' :: back := by
  induction cs generalizing front with
  | nil => cases h
  | cons c cs ih =>
      by_cases hc : c = '/'
      · subst hc
        cases h
        rfl
      · rw [splitSlash?.eq_3 _ _ hc, Option.map_eq_some_iff] at h
        obtain ⟨⟨front', back'⟩, hsplit, heq⟩ := h
        cases heq
        rw [ih hsplit, List.cons_append]

/-- A topic that names a channel is the topic that was made for it. -/
theorem of_parse? {topic : String} {channel : Channel} (h : parse? topic = some channel) :
    ∃ name, channel = .control name ∧ topic = control name ∨ channel = .data name ∧ topic = data name := by
  cases hsplit : splitSlash? topic.toList with
  | none => simp [parse?, hsplit] at h
  | some parts =>
      obtain ⟨front, back⟩ := parts
      obtain ⟨name, rfl⟩ : ∃ name, back = String.toList name := ⟨String.ofList back, String.toList_ofList.symm⟩
      have htopic := eq_of_splitSlash? hsplit
      rw [parse?_of_split hsplit] at h
      refine ⟨name, ?_⟩
      split at h
      · cases h
      · split at h
        · next hfront =>
          rw [hfront, ← toList_control] at htopic
          exact .inl ⟨(Option.some.inj h).symm, String.toList_inj.mp htopic⟩
        · split at h
          · next hfront =>
            rw [hfront, ← toList_data] at htopic
            exact .inr ⟨(Option.some.inj h).symm, String.toList_inj.mp htopic⟩
          · cases h

end Topic

/-! ## Messages -/

namespace Agent

/-- The acknowledgements that come on the control topic of a name and can be read. -/
def acksOn (name : String) (ms : List Message) : List Ack :=
  (ms.filter fun m => m.topic = Topic.control name).filterMap fun m => Ack.decode? m.payload

/-- The commands that come on the data topic of a name and can be read. -/
def commandsOn (name : String) (ms : List Message) : List WorkloadCommand :=
  (ms.filter fun m => m.topic = Topic.data name).filterMap fun m => WorkloadCommand.decode? m.payload

/-- The agent after messages have come. -/
def receiveAll (a : Agent) (ms : List Message) : Agent :=
  ms.foldl (fun a m => (a.receive m.topic m.payload).2) a

/-- Stores acknowledgements under their identifiers. -/
def storeAcks (acks : Correlation Ack) (ks : List Ack) : Correlation Ack :=
  ks.foldl (fun acks k => (acks.set k.identifier k).2) acks

variable {a : Agent}

theorem receive_control (hname : a.name ≠ "") (payload : Bytes) :
    a.receive (Topic.control a.name) payload =
      match Ack.decode? payload with
      | some k => a.acknowledge k
      | none => (none, a) := by
  rw [receive, Topic.parse?_control, if_neg hname]
  exact if_pos rfl

theorem receive_data (hname : a.name ≠ "") (payload : Bytes) :
    a.receive (Topic.data a.name) payload =
      match WorkloadCommand.decode? payload with
      | some c => (none, { a with workloads := (a.workloads.apply c).2 })
      | none => (none, a) := by
  rw [receive, Topic.parse?_data, if_neg hname]
  exact if_pos rfl

theorem receive_other {topic : String} (hcontrol : topic ≠ Topic.control a.name)
    (hdata : topic ≠ Topic.data a.name) (payload : Bytes) : a.receive topic payload = (none, a) := by
  rw [receive]
  cases hparse : Topic.parse? topic with
  | none => rfl
  | some channel =>
      obtain ⟨name, ⟨rfl, rfl⟩ | ⟨rfl, rfl⟩⟩ := Topic.of_parse? hparse
      · exact if_neg fun heq => hcontrol (congrArg Topic.control heq)
      · exact if_neg fun heq => hdata (congrArg Topic.data heq)

/-- One message changes the store by its acknowledgement, or the workloads by its command, or nothing. -/
theorem receive_snd (hname : a.name ≠ "") (m : Message) :
    (a.receive m.topic m.payload).2 =
      { a with
        acks := storeAcks a.acks (acksOn a.name [m])
        workloads := a.workloads.applyAll (commandsOn a.name [m]) } := by
  obtain ⟨topic, payload⟩ := m
  by_cases hcontrol : topic = Topic.control a.name
  · subst hcontrol
    have hdata := (Topic.data_ne_control a.name a.name).symm
    rw [receive_control hname]
    cases hdecode : Ack.decode? payload <;>
      simp [acksOn, commandsOn, hdata, hdecode, storeAcks, LocalWorkloads.applyAll, acknowledge]
  · by_cases hdata : topic = Topic.data a.name
    · subst hdata
      rw [receive_data hname]
      cases hdecode : WorkloadCommand.decode? payload <;>
        simp [acksOn, commandsOn, hcontrol, hdecode, storeAcks, LocalWorkloads.applyAll]
    · rw [receive_other hcontrol hdata]
      simp [acksOn, commandsOn, hcontrol, hdata, storeAcks, LocalWorkloads.applyAll]

/-! ## Series of messages -/

theorem acksOn_append (name : String) (ms ms' : List Message) :
    acksOn name (ms ++ ms') = acksOn name ms ++ acksOn name ms' := by
  rw [acksOn, List.filter_append, List.filterMap_append]
  rfl

theorem commandsOn_append (name : String) (ms ms' : List Message) :
    commandsOn name (ms ++ ms') = commandsOn name ms ++ commandsOn name ms' := by
  rw [commandsOn, List.filter_append, List.filterMap_append]
  rfl

theorem commandsOn_data (name : String) (payload : Bytes) :
    commandsOn name [⟨Topic.data name, payload⟩] = (WorkloadCommand.decode? payload).toList := by
  cases h : WorkloadCommand.decode? payload <;> simp [commandsOn, h]

theorem acksOn_data (name : String) (payload : Bytes) : acksOn name [⟨Topic.data name, payload⟩] = [] := by
  simp [acksOn, Topic.data_ne_control]

theorem storeAcks_append (acks : Correlation Ack) (ks ks' : List Ack) :
    storeAcks acks (ks ++ ks') = storeAcks (storeAcks acks ks) ks' :=
  List.foldl_append

theorem receiveAll_append (a : Agent) (ms ms' : List Message) :
    a.receiveAll (ms ++ ms') = (a.receiveAll ms).receiveAll ms' :=
  List.foldl_append

theorem receiveAll_eq (hname : a.name ≠ "") (ms : List Message) :
    a.receiveAll ms =
      { a with
        acks := storeAcks a.acks (acksOn a.name ms)
        workloads := a.workloads.applyAll (commandsOn a.name ms) } := by
  induction ms using List.reverseRecOn with
  | nil => rfl
  | append_singleton ms m ih =>
      have hname' : (a.receiveAll ms).name = a.name := by rw [ih]
      have hstep : (a.receiveAll ms).receiveAll [m] = ((a.receiveAll ms).receive m.topic m.payload).2 := rfl
      rw [receiveAll_append, hstep, receive_snd (by rwa [hname']), hname', ih, acksOn_append, storeAcks_append,
        commandsOn_append, LocalWorkloads.applyAll_append]

/-- Two messages on the data topic only matter by their commands. -/
theorem receiveAll_data (hname : a.name ≠ "") (payload payload' : Bytes) :
    a.receiveAll [⟨Topic.data a.name, payload⟩, ⟨Topic.data a.name, payload'⟩] =
      { a with
        workloads := a.workloads.applyAll
          ((WorkloadCommand.decode? payload).toList ++ (WorkloadCommand.decode? payload').toList) } := by
  rw [receiveAll_eq hname, ← List.singleton_append, acksOn_append, commandsOn_append, acksOn_data, acksOn_data,
    commandsOn_data, commandsOn_data]
  rfl

/-- While nobody waits, the last acknowledgement under an identifier stays in the store. -/
theorem get?_storeAcks {acks : Correlation Ack} (hwaiters : acks.waiters = []) (ks : List Ack) (i : String) :
    (storeAcks acks ks).get? i =
      match ks.reverse.find? fun k => k.identifier = i with
      | some k => some k
      | none => acks.get? i := by
  induction ks generalizing acks with
  | nil => rfl
  | cons k ks ih =>
      have hset := congrArg Prod.snd (Correlation.set_of_no_waiters hwaiters k.identifier k)
      have hstep : storeAcks acks (k :: ks) = storeAcks (acks.set k.identifier k).2 ks := rfl
      rw [hstep, ih (by rwa [hset]), hset, List.reverse_cons, List.find?_append]
      cases ks.reverse.find? fun k => decide (k.identifier = i) with
      | some k' => rfl
      | none =>
          rw [Option.none_or, List.find?_singleton, Correlation.get?_insert]
          by_cases hi : k.identifier = i
          · simp [hi]
          · simp [hi, Ne.symm hi]

end Agent

/-! ## Repetition and order -/

namespace LocalWorkloads

theorem eq_of_get? {ws ws' : LocalWorkloads} (h : ∀ key, ws.get? key = ws'.get? key) : ws = ws' :=
  congrArg LocalWorkloads.mk (KeyMap.ext h)

theorem apply_twice (ws : LocalWorkloads) (c : WorkloadCommand) :
    ((ws.apply c).2.apply c).2 = (ws.apply c).2 := by
  refine eq_of_get? fun key => ?_
  by_cases hkey : key = c.key <;> simp only [get?_apply, hkey, if_true, if_false]

theorem apply_comm (ws : LocalWorkloads) {c c' : WorkloadCommand} (h : c.key ≠ c'.key) :
    ((ws.apply c).2.apply c').2 = ((ws.apply c').2.apply c).2 := by
  refine eq_of_get? fun key => ?_
  simp only [get?_apply]
  split_ifs with hkey hkey'
  · exact absurd (hkey'.symm.trans hkey) h
  · rfl
  · rfl
  · rfl

end LocalWorkloads

namespace Agent

/-- What messages do to an agent. -/
structure InboxSpec (a : Agent) (ms : List Message) (b : Agent) : Prop where
  /-- Under each key there is what the last command for it says: nothing after a delete, and after a sync a
  workload with the hash, the name, the namespace and the specification that it gives. -/
  workloads : ∀ key, b.workloads.get? key =
    match (commandsOn a.name ms).reverse.find? fun c => c.key = key with
    | some c => if c.isDelete then none else some ⟨c.hash, c.name, c.ns, c.spec⟩
    | none => a.workloads.get? key
  /-- The store is given the acknowledgements, each under its identifier. -/
  acks : b.acks = storeAcks a.acks (acksOn a.name ms)
  /-- While nobody waits, the last acknowledgement under an identifier stays in the store. -/
  stored : a.acks.waiters = [] → ∀ i, b.acks.get? i =
    match (acksOn a.name ms).reverse.find? fun k => k.identifier = i with
    | some k => some k
    | none => a.acks.get? i
  rest : b = { a with acks := b.acks, workloads := b.workloads }

/-- Which messages an agent takes in. -/
structure Selective (a : Agent) : Prop where
  /-- What is on no topic of the agent, or cannot be read, leaves it as it is. -/
  ignores : ∀ m : Message, (m.topic = Topic.control a.name → Ack.decode? m.payload = none) →
    (m.topic = Topic.data a.name → WorkloadCommand.decode? m.payload = none) →
    a.receive m.topic m.payload = (none, a)
  /-- What the controller sends to another agent leaves it as it is. -/
  foreign : ∀ agent, agent ≠ a.name →
    (∀ c, a.receive (Message.ofCommand agent c).topic (Message.ofCommand agent c).payload = (none, a)) ∧
      ∀ k : Ack, k.agent = agent → a.receive (Message.ofAck k).topic (Message.ofAck k).payload = (none, a)
  /-- A message on the data topic may come twice. -/
  again : ∀ payload, a.receiveAll [⟨Topic.data a.name, payload⟩, ⟨Topic.data a.name, payload⟩] =
    a.receiveAll [⟨Topic.data a.name, payload⟩]
  /-- Commands for different keys may come in any order. -/
  swap : ∀ payload payload' c c', WorkloadCommand.decode? payload = some c →
    WorkloadCommand.decode? payload' = some c' → c.key ≠ c'.key →
    a.receiveAll [⟨Topic.data a.name, payload⟩, ⟨Topic.data a.name, payload'⟩] =
      a.receiveAll [⟨Topic.data a.name, payload'⟩, ⟨Topic.data a.name, payload⟩]

variable {a : Agent}

theorem inboxSpec_receiveAll (hname : a.name ≠ "") (ms : List Message) : a.InboxSpec ms (a.receiveAll ms) := by
  have hall := receiveAll_eq hname ms
  refine ⟨fun key => ?_, ?_, fun hwaiters i => ?_, ?_⟩
  · rw [hall]
    exact LocalWorkloads.get?_applyAll ..
  · rw [hall]
  · rw [hall]
    exact get?_storeAcks hwaiters ..
  · rw [hall]

theorem selective_of_name (hname : a.name ≠ "") : a.Selective where
  ignores := by
    rintro ⟨topic, payload⟩ hcontrol hdata
    by_cases htopic : topic = Topic.control a.name
    · subst htopic
      rw [receive_control hname, hcontrol rfl]
    · by_cases htopic' : topic = Topic.data a.name
      · subst htopic'
        rw [receive_data hname, hdata rfl]
      · exact receive_other htopic htopic' payload
  foreign agent hagent := by
    refine ⟨fun c => ?_, fun k hk => receive_ofAck_of_ne (hk ▸ hagent)⟩
    exact receive_other (Topic.data_ne_control agent a.name)
      (fun htopic => hagent (Topic.data_injective htopic)) _
  again payload := by
    rw [receiveAll_data hname, receiveAll_eq hname, acksOn_data, commandsOn_data]
    cases WorkloadCommand.decode? payload with
    | none => rfl
    | some c => exact congrArg (fun workloads => { a with workloads }) (a.workloads.apply_twice c)
  swap payload payload' c c' hc hc' hkey := by
    rw [receiveAll_data hname, receiveAll_data hname, hc, hc']
    exact congrArg (fun workloads => { a with workloads }) (a.workloads.apply_comm hkey)

/-- Whatever messages come to an agent with a name, the last command for a key that is on its data topic and
can be read decides what is under the key, its store is given the acknowledgements on its control topic, and
nothing else counts, least of all what is meant for another agent. -/
theorem inbox_decides (hname : a.name ≠ "") (ms : List Message) :
    a.InboxSpec ms (a.receiveAll ms) ∧ (a.receiveAll ms).Selective := by
  refine ⟨inboxSpec_receiveAll hname ms, selective_of_name ?_⟩
  rwa [receiveAll_eq hname]

/-- Two pairs of namespace and name have one key: the second sync counts. A delete for an agent with a longer
name does not, nor one below the agent's name, and an acknowledgement that cannot be read is not stored. -/
theorem inbox_decides_one_key :
    let a : Agent := .start "edge-1" 1 "x86_64" ⟨[], none, none, none⟩
    let sync (ns name hash : String) : WorkloadCommand := ⟨hash, name, ns, none, none⟩
    let delete (ns name : String) : WorkloadCommand := ⟨"", name, ns, none, some .epoch⟩
    let ms : List Message :=
      [.ofCommand "edge-1" (sync "a-b" "c" "h1"), .ofCommand "edge-1" (sync "a" "b-c" "h2"),
        .ofCommand "edge-10" (delete "a" "b-c"), .ofCommand "edge-1/x" (delete "a" "b-c"),
        ⟨"ctl/edge-1", [123]⟩, .ofAck ⟨"x-1", true, "edge-1"⟩, .ofAck ⟨"x-2", true, "edge-2"⟩]
    a.name ≠ "" ∧ (a.receiveAll ms).workloads.get? "a-b-c" = some ⟨"h2", "b-c", "a", none⟩ ∧
      (a.receiveAll ms).acks.get? "x-1" = some ⟨"x-1", true, ""⟩ ∧
      (a.receiveAll ms).acks.get? "x-2" = none := by
  intro a sync delete ms
  have hname : a.name ≠ "" := by decide
  obtain ⟨hinbox, -⟩ := inbox_decides hname ms
  have hcommands : commandsOn a.name ms = [sync "a-b" "c" "h1", sync "a" "b-c" "h2"] := by decide +kernel
  have hacks : acksOn a.name ms = [⟨"x-1", true, ""⟩] := by decide +kernel
  refine ⟨hname, ?_, ?_, ?_⟩
  · rw [hinbox.workloads, hcommands]
    rfl
  · rw [hinbox.stored rfl, hacks]
    rfl
  · rw [hinbox.stored rfl, hacks]
    rfl

end Agent

end EdgeFleet
