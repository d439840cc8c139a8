import EdgeFleet.Proofs.Agent.Session
import EdgeFleet.Proofs.Fleet.Runs

/-! # A fleet and its agents on a lossy network

A fleet and its agents exchange messages through a network that delivers what was sent at any time, in any
order, several times or never.
-/

namespace EdgeFleet

/-! ## The parties -/

/-- The session of an agent that has just been started. -/
structure Session.IsFresh (name : String) (s : Session) : Prop where
  name : s.agent.name = name
  stage : s.stage = .starting
  entries : s.agent.acks.entries = ∅
  waiters : s.agent.acks.waiters = []

/-- An agent and the reports that it has made, the latest first. -/
structure Client where
  session : Session
  reports : List Heartbeat
  /-- The latest report is still on its way to the broker. -/
  publishing : Bool

namespace Client

/-- A report of the agent, whose host has some status. -/
def report (c : Client) (status : NodeStatus) (state : AgentState) (identifier : String)
    (timestamp : Int64) : Heartbeat :=
  Agent.heartbeat { c.session.agent with status } state identifier timestamp

/-- What an agent may do by itself or when one of the messages in `sent` comes, and what it sends. An
agent that is started again remembers nothing, but does not use its old identifiers. -/
inductive Step (sent : List Message) (c : Client) : List Message → Client → Prop where
  | report (status : NodeStatus) (state : AgentState) (identifier : String) (timestamp : Int64)
      (hdue : c.session.due? = some state) (hidle : c.publishing = false)
      (hnew : identifier ∉ c.reports.map (·.identifier)) :
      Step sent c [⟨Topic.heartbeat, (c.report status state identifier timestamp).encode⟩]
        ⟨c.session, c.report status state identifier timestamp :: c.reports, true⟩
  | published {h : Heartbeat} (hlatest : c.reports.head? = some h) (hpublishing : c.publishing = true)
      (refusal : Option String) :
      Step sent c [] ⟨c.session.reported h.identifier refusal, c.reports, false⟩
  | receive (m : Message) (hsent : m ∈ sent) :
      Step sent c [] { c with session := c.session.receive m.topic m.payload }
  | pass (duration : Nat) : Step sent c [] { c with session := c.session.pass duration }
  | restart {s : Session} (hfresh : s.IsFresh c.session.agent.name) : Step sent c [] ⟨s, c.reports, false⟩

end Client

/-- What happens in the course of a handshake. -/
inductive Occurrence where
  /-- A report has passed the filter. -/
  | accepted (h : Heartbeat)
  /-- A sweep has registered an agent whose entry was made by the report with the identifier. -/
  | promoted (agent identifier : String)
  /-- An attempt of an agent to register has succeeded; its latest report is given. -/
  | completed (agent : String) (report : Option Heartbeat) (ack : Ack)
  deriving DecidableEq

namespace Client

/-- A change from a session that is not registered to one that is. -/
def completions (agent : String) (c c' : Client) : List Occurrence :=
  match c.session.granted?, c'.session.granted? with
  | none, some ack => [.completed agent c.reports.head? ack]
  | _, _ => []

end Client

namespace Fleet

/-- The network has brought what the call takes in. -/
def Event.IsDelivered (sent : List Message) : Event → Prop
  | .consume _ _ => False
  | .ingest payload _ => ⟨Topic.heartbeat, payload⟩ ∈ sent
  | .sweep _ _ | .define _ _ | .retract _ _ _ => True

/-- What the fleet sends after a call. Who is acknowledged gets all commands anew. -/
def outbox (f : Fleet) (e : Event) : List Message :=
  match (f.call e).1 with
  | .ingested (some (agent, .accepted _ commands)) => commands.map (.ofCommand agent)
  | .consumed _ | .ingested _ => []
  | .swept s => s.acks.flatMap fun k =>
      .ofAck k :: (f.desired.commands k.agent).map (.ofCommand k.agent)
  | .defined out => out.map fun o => .ofCommand o.1 o.2
  | .retracted out => (out.getD []).map fun o => .ofCommand o.1 o.2

/-- The agents that a sweep has taken from registering to registered, with the identifiers in their entries. -/
def promotions (before after : Registry) : List Occurrence :=
  before.agents.toList.filterMap fun (agent, e) =>
    if e.record.state = .registering ∧ after.stateOf? agent = some .registered then
      some (.promoted agent e.record.identifier)
    else none

def occurrences (f : Fleet) : Event → List Occurrence
  | .ingest payload now =>
    match Heartbeat.decode? payload, (f.ingest payload now).1 with
    | some h, some (_, .accepted _ _) => [.accepted h]
    | _, _ => []
  | .sweep limit now => promotions f.registry (f.sweepAfter limit now).2.registry
  | .consume _ _ | .define _ _ | .retract _ _ _ => []

end Fleet

/-! ## The network -/

structure Network where
  fleet : Fleet
  clients : KeyMap Client
  /-- All messages that were ever sent. -/
  sent : List Message

namespace Network

inductive Step (n : Network) : List Occurrence → Network → Prop where
  | client {agent : String} {c c' : Client} {out : List Message}
      (hget : n.clients.get? agent = some c) (hstep : c.Step n.sent out c') :
      Step n (c.completions agent c')
        { n with clients := n.clients.insert agent c', sent := out ++ n.sent }
  | fleet (e : Fleet.Event) (hdelivered : e.IsDelivered n.sent) :
      Step n (n.fleet.occurrences e) { n with fleet := n.fleet.after e, sent := n.fleet.outbox e ++ n.sent }

/-- The networks that begin with no agent known to the fleet, with what has happened so far. -/
inductive Reached : List Occurrence → Network → Prop where
  | start (d : Desired) {clients : KeyMap Client}
      (hfresh : ∀ agent c, clients.get? agent = some c →
        c.session.IsFresh agent ∧ c.reports = [] ∧ c.publishing = false) :
      Reached [] ⟨.start d, clients, []⟩
  | step {log new : List Occurrence} {n n' : Network} (h : Reached log n) (hstep : n.Step new n') :
      Reached (log ++ new) n'

end Network

/-! ## What the fleet does -/

namespace Fleet

theorem mem_promotions {before after : Registry} {o : Occurrence} :
    o ∈ promotions before after ↔ ∃ agent e, before.get? agent = some e ∧
      e.record.state = .registering ∧ after.stateOf? agent = some .registered ∧
        o = .promoted agent e.record.identifier := by
  rw [promotions, List.mem_filterMap]
  constructor
  · rintro ⟨⟨agent, e⟩, he, ho⟩
    rw [Option.ite_none_right_eq_some] at ho
    exact ⟨agent, e, (KeyMap.mem_toList _).mp he, ho.1.1, ho.1.2, (Option.some.inj ho.2).symm⟩
  · rintro ⟨agent, e, he, hbefore, hafter, rfl⟩
    exact ⟨(agent, e), (KeyMap.mem_toList _).mpr he, if_pos ⟨hbefore, hafter⟩⟩

/-- A message passes the filter and changes the registry, or it does neither. -/
theorem ingest_cases (f : Fleet) (payload : Bytes) (now : Timestamp) :
    f.occurrences (.ingest payload now) = [] ∧ (f.ingest payload now).2.registry = f.registry ∨
      ∃ h, Heartbeat.decode? payload = some h ∧ f.occurrences (.ingest payload now) = [.accepted h] ∧
        (f.ingest payload now).2.registry = (f.registry.receive h now).2 := by
  cases hdecode : Heartbeat.decode? payload with
  | none =>
      refine .inl ⟨?_, ?_⟩
      · simp only [occurrences, hdecode]
      · simp only [ingest, hdecode, countReceived]
  | some h =>
      have hingest : f.ingest payload now =
          (some (h.name, (f.countReceived.judge h now).1), (f.countReceived.judge h now).2) := by
        simp only [ingest, hdecode]
      by_cases haccepted : Filter.judge (f.countReceived.filter.get? h.name) (.ofHeartbeat h) = .accepted
      · refine .inr ⟨h, rfl, ?_, ?_⟩
        · simp only [occurrences, hdecode, hingest, judge_of_accepted haccepted, absorb]
        · rw [hingest, judge_of_accepted haccepted]
          rfl
      · refine .inl ⟨?_, ?_⟩
        · simp only [occurrences, hdecode, hingest, judge_of_stale haccepted]
        · rw [hingest, judge_of_stale haccepted]
          rfl

/-- A call takes in a report that was delivered, or it sweeps, or it leaves the registry alone. -/
theorem registry_after (f : Fleet) {e : Event} {sent : List Message} (hdelivered : e.IsDelivered sent) :
    f.occurrences e = [] ∧ (f.after e).registry = f.registry ∨
      (∃ payload h, ⟨Topic.heartbeat, payload⟩ ∈ sent ∧ Heartbeat.decode? payload = some h ∧
        f.occurrences e = [.accepted h] ∧ ∃ now, (f.after e).registry = (f.registry.receive h now).2) ∨
      ∃ limit now, f.occurrences e = promotions f.registry (f.registry.sweepAfter limit now).registry ∧
        (f.after e).registry = (f.registry.sweepAfter limit now).registry := by
  cases e with
  | consume h now => exact hdelivered.elim
  | ingest payload now =>
      rcases f.ingest_cases payload now with hnone | ⟨h, hh, hoccurrences, hregistry⟩
      · exact .inl hnone
      · exact .inr (.inl ⟨payload, h, hdelivered, hh, hoccurrences, now, hregistry⟩)
  | sweep limit now => exact .inr (.inr ⟨limit, now, rfl, rfl⟩)
  | define w now => exact .inl ⟨rfl, rfl⟩
  | retract ns name now =>
      refine .inl ⟨rfl, ?_⟩
      rw [after, call]
      cases f.desired.retract ns name now <;> rfl

theorem filed_after {f : Fleet} (hf : f.registry.Filed) {e : Event} {sent : List Message}
    (hdelivered : e.IsDelivered sent) : (f.after e).registry.Filed := by
  rcases f.registry_after hdelivered with ⟨-, hr⟩ | ⟨-, h, -, -, -, now, hr⟩ | ⟨limit, now, -, hr⟩
  · rwa [hr]
  · rw [hr]
    exact hf.receive h now
  · rw [hr]
    exact hf.sweepAfter limit now

theorem call_eq_swept {f : Fleet} {e : Event} {s : Sweep} (h : (f.call e).1 = .swept s) :
    ∃ limit now, e = .sweep limit now ∧ s = f.registry.sweepAfter limit now := by
  cases e with
  | sweep limit now =>
      cases h
      exact ⟨limit, now, rfl, rfl⟩
  | retract ns name now =>
      rw [call] at h
      cases hretract : f.desired.retract ns name now <;> simp [hretract] at h
  | _ => cases h

/-- The fleet sends commands, and acknowledgements after a sweep. -/
theorem mem_outbox {f : Fleet} {e : Event} {m : Message} (hm : m ∈ f.outbox e) :
    (∃ agent c, m = .ofCommand agent c) ∨ ∃ limit now, e = .sweep limit now ∧
      ∃ k ∈ (f.registry.sweepAfter limit now).acks, m = .ofAck k := by
  rw [outbox] at hm
  split at hm
  · obtain ⟨c, -, rfl⟩ := List.mem_map.mp hm
    exact .inl ⟨_, c, rfl⟩
  · cases hm
  · cases hm
  · next s hswept =>
    obtain ⟨limit, now, rfl, rfl⟩ := call_eq_swept hswept
    obtain ⟨k, hk, hm⟩ := List.mem_flatMap.mp hm
    rcases List.mem_cons.mp hm with rfl | hm
    · exact .inr ⟨limit, now, rfl, k, hk, rfl⟩
    · obtain ⟨c, -, rfl⟩ := List.mem_map.mp hm
      exact .inl ⟨_, c, rfl⟩
  · obtain ⟨o, -, rfl⟩ := List.mem_map.mp hm
    exact .inl ⟨_, _, rfl⟩
  · obtain ⟨o, -, rfl⟩ := List.mem_map.mp hm
    exact .inl ⟨_, _, rfl⟩

theorem not_completed_mem_occurrences (f : Fleet) (e : Event) (agent : String) (report : Option Heartbeat)
    (ack : Ack) : .completed agent report ack ∉ f.occurrences e := by
  intro h
  cases e with
  | ingest payload now =>
      rcases f.ingest_cases payload now with ⟨hnone, -⟩ | ⟨r, -, haccepted, -⟩
      · rw [hnone] at h
        cases h
      · rw [haccepted, List.mem_singleton] at h
        cases h
  | sweep limit now =>
      obtain ⟨_, _, _, _, _, ho⟩ := mem_promotions.mp h
      cases ho
  | _ => cases h

end Fleet

end EdgeFleet
