import EdgeFleet.Proofs.Agent.Session
import Mathlib.Data.List.Basic
import Mathlib.Data.List.Infix

/-! # The course of a session

A session goes its course between messages that may come at any time, publications that may be refused
and a stop. What has happened tells what it is doing, and with it what may happen next and when.
-/

namespace EdgeFleet.Session

/-! ## Courses -/

/-- What happens in the course of a session. -/
inductive Incident where
  /-- A report was made, and it got out or was refused for a reason. -/
  | published (h : Heartbeat) (refusal : Option String)
  | received (m : Message)
  /-- An attempt to register succeeded. -/
  | granted (k : Ack)
  /-- An attempt to register failed. -/
  | failed (e : RegistrationError)
  | stopped
  deriving DecidableEq

namespace Incident

def isReceived : Incident → Bool
  | received _ => true
  | _ => false

def report? : Incident → Option Heartbeat
  | published h _ => some h
  | _ => none

/-- The end of an attempt. -/
def ofResult : Except RegistrationError Ack → Incident
  | .ok k => granted k
  | .error e => failed e

/-- The end of an attempt by its acknowledgement. -/
def ofAck (k : Ack) : Incident := if k.accepted then granted k else failed (.rejected k.identifier)

end Incident

/-- Incidents with their times, the first one first. -/
abbrev Log := List (Nat × Incident)

namespace Log

/-- What the session itself did. -/
def own (log : Log) : Log := log.filter fun x => !x.2.isReceived

/-- The latest that the session itself did. -/
def Latest (log : Log) (t : Nat) (i : Incident) : Prop := log.own.getLast? = some (t, i)

/-- The reports that were made, with their times. -/
def reports (log : Log) : List (Nat × Heartbeat) :=
  log.filterMap fun x => x.2.report?.map fun h => (x.1, h)

def identifiers (log : Log) : List String := log.reports.map (·.2.identifier)

/-- The reports of an agent that tries to register. -/
def attempts (log : Log) : List (Nat × Heartbeat) := log.reports.filter (·.2.state = .registering)

/-- The reports of an agent that has registered. -/
def beats (log : Log) : List (Nat × Heartbeat) := log.reports.filter (·.2.state = .registered)

/-- An acknowledgement under the identifier has come to the agent with the name. -/
def Received (log : Log) (name identifier : String) (k : Ack) : Prop :=
  k.identifier = identifier ∧ ∃ r m, (r, .received m) ∈ log ∧ m.ackFor? name = some k

end Log

/-- The end of an attempt if it has come. -/
def outcome? (s : Session) : Option Incident :=
  match s.stage with
  | .resting e _ => some (.failed e)
  | .registered k _ => some (.granted k)
  | .starting | .waiting _ _ | .stopped => none

/-- What is noted of an attempt after a step. -/
def ending (isAttempt : Bool) (s : Session) : Log :=
  if isAttempt then (s.outcome?.map fun i => (s.now, i)).toList else []

/-- A report of the agent, whose host has some status. -/
def report (s : Session) (status : NodeStatus) (state : AgentState) (identifier : String)
    (timestamp : Int64) : Heartbeat :=
  Agent.heartbeat { s.agent with status } state identifier timestamp

/-- How the session `s₀` may go on from its start. Its attempts have identifiers of their own, and
making a report takes no time. The session does not sleep through the times at which it acts, but its
first attempt may be put off. -/
inductive Course (s₀ : Session) : Log → Session → Prop where
  | start (hstage : s₀.stage = .starting) (hentries : s₀.agent.acks.entries = ∅)
      (hwaiters : s₀.agent.acks.waiters = []) : Course s₀ [] s₀
  | report {log : Log} {s : Session} (h : Course s₀ log s) (status : NodeStatus) (state : AgentState)
      (identifier : String) (timestamp : Int64) (refusal : Option String)
      (hdue : s.due? = some state) (hnew : state = .registering → identifier ∉ log.identifiers) :
      Course s₀
        (log ++ [(s.now, .published (s.report status state identifier timestamp) refusal)] ++
          (s.reported identifier refusal).ending (state = .registering))
        (s.reported identifier refusal)
  | receive {log : Log} {s : Session} (h : Course s₀ log s) (m : Message) :
      Course s₀
        (log ++ [(s.now, .received m)] ++ (s.receive m.topic m.payload).ending s.awaited?.isSome)
        (s.receive m.topic m.payload)
  | pass {log : Log} {s : Session} (h : Course s₀ log s) (duration : Nat)
      (hidle : s.stage = .starting ∨ s.due? = none ∧ ∀ t ∈ s.wake?, s.now + duration ≤ t) :
      Course s₀ (log ++ (s.pass duration).ending s.awaited?.isSome) (s.pass duration)
  | stop {log : Log} {s : Session} (h : Course s₀ log s) (hstage : s.stage ≠ .stopped) :
      Course s₀ (log ++ [(s.now, .stopped)]) s.stop

/-! ## The rules -/

/-- What may happen at a time to the session `s₀` after what has happened. -/
inductive Permitted (s₀ : Session) (past : Log) (t : Nat) : Incident → Prop where
  | received (m : Message) : Permitted s₀ past t (.received m)
  | stopped : Permitted s₀ past t .stopped
  /-- An attempt is the first thing that happens, or comes one backoff after a failure. -/
  | attempt {h : Heartbeat} {refusal : Option String} (hname : h.name = s₀.agent.name)
      (hseqnum : h.seqnum = s₀.agent.seqnum) (hstate : h.state = .registering)
      (hnew : h.identifier ∉ past.identifiers) (hungranted : ∀ g k, (g, .granted k) ∉ past)
      (hwhen : past.own = [] ∨ ∃ f e, past.Latest f (.failed e) ∧ t = f + s₀.backoff) :
      Permitted s₀ past t (.published h refusal)
  /-- The reports of a registered agent come in intervals from its registration on. -/
  | beat {h : Heartbeat} {refusal : Option String} {g : Nat} {k : Ack} (hname : h.name = s₀.agent.name)
      (hseqnum : h.seqnum = s₀.agent.seqnum) (hstate : h.state = .registered)
      (hgranted : (g, .granted k) ∈ past) (hwhen : t = g + (past.beats.length + 1) * s₀.interval) :
      Permitted s₀ past t (.published h refusal)
  | granted {h : Heartbeat} {p : Nat} {k : Ack} (hlatest : past.Latest p (.published h none))
      (hstate : h.state = .registering) (hafter : p ≤ t) (hbefore : t ≤ p + s₀.ackWait)
      (hreceived : past.Received s₀.agent.name h.identifier k) (haccepted : k.accepted = true) :
      Permitted s₀ past t (.granted k)
  | rejected {h : Heartbeat} {p : Nat} {k : Ack} (hlatest : past.Latest p (.published h none))
      (hstate : h.state = .registering) (hafter : p ≤ t) (hbefore : t ≤ p + s₀.ackWait)
      (hreceived : past.Received s₀.agent.name h.identifier k) (haccepted : k.accepted = false) :
      Permitted s₀ past t (.failed (.rejected h.identifier))
  | timeout {h : Heartbeat} {p : Nat} (hlatest : past.Latest p (.published h none))
      (hstate : h.state = .registering) (hwhen : t = p + s₀.ackWait) :
      Permitted s₀ past t (.failed (.timeout h.identifier s₀.ackWait))
  | refused {h : Heartbeat} {reason : String} (hlatest : past.Latest t (.published h (some reason)))
      (hstate : h.state = .registering) : Permitted s₀ past t (.failed (.transport reason))

/-- Everything happens by the rules, and the session does nothing after it was stopped. -/
structure Orderly (s₀ : Session) (log : Log) : Prop where
  permitted : ∀ (past : Log) t i, past ++ [(t, i)] <+: log → Permitted s₀ past t i
  silent : ∀ (past : Log) t i, past ++ [(t, i)] <+: log → i.isReceived = false →
    ∀ t', (t', .stopped) ∉ past

/-- An acknowledgement of the attempt under way ends it at once. -/
def Heard (s₀ : Session) (log : Log) : Prop :=
  ∀ (past : Log) r m, past ++ [(r, .received m)] <+: log → ∀ p h k,
    past.Latest p (.published h none) → h.state = .registering → m.ackFor? s₀.agent.name = some k →
      k.identifier = h.identifier → past ++ [(r, .received m)] ++ [(r, .ofAck k)] <+: log

/-! ## The end of an attempt -/

theorem isReceived_ofResult (r : Except RegistrationError Ack) : (Incident.ofResult r).isReceived = false := by
  cases r <;> rfl

theorem isReceived_ofAck (k : Ack) : (Incident.ofAck k).isReceived = false := by
  rw [Incident.ofAck]
  split <;> rfl

theorem ending_conclude (s : Session) (r : Except RegistrationError Ack) :
    (s.conclude r).ending true = [(s.now, .ofResult r)] := by
  cases r <;> rfl

theorem ofResult_judge_some (s : Session) (i : String) (k : Ack) :
    Incident.ofResult (s.judge i (some k)) = .ofAck k := by
  rw [judge, Incident.ofAck]
  split <;> rfl

/-! ## Growing logs -/

namespace Log

variable {log : Log} {t : Nat} {i : Incident}

theorem own_received (log : Log) (r : Nat) (m : Message) : own (log ++ [(r, .received m)]) = own log := by
  simp [own, Incident.isReceived]

theorem latest_received {r : Nat} {m : Message} :
    Latest (log ++ [(r, .received m)]) t i ↔ Latest log t i := by
  rw [Latest, own_received, Latest]

theorem latest_concat {t' : Nat} {i' : Incident} (h : i.isReceived = false) :
    Latest (log ++ [(t, i)]) t' i' ↔ t' = t ∧ i' = i := by
  have hown : own (log ++ [(t, i)]) = own log ++ [(t, i)] := by simp [own, h]
  rw [Latest, hown, List.getLast?_concat, Option.some.injEq, Prod.mk.injEq, eq_comm (a := t),
    eq_comm (a := i)]

theorem Received.append {name identifier : String} {k : Ack} (h : log.Received name identifier k)
    (new : Log) : Received (log ++ new) name identifier k := by
  obtain ⟨hidentifier, r, m, hmem, hack⟩ := h
  exact ⟨hidentifier, r, m, List.mem_append_left _ hmem, hack⟩

theorem of_concat_prefix {past log : Log} {x y : Nat × Incident} (h : past ++ [x] <+: log ++ [y]) :
    past ++ [x] <+: log ∨ past = log ∧ x = y := by
  rcases List.prefix_concat_iff.mp h with h | h
  · obtain ⟨rfl, hxy⟩ := List.append_inj' h rfl
    exact .inr ⟨rfl, List.singleton_inj.mp hxy⟩
  · exact .inl h

theorem reports_concat (log : Log) (t : Nat) (i : Incident) :
    reports (log ++ [(t, i)]) = log.reports ++ (i.report?.map fun h => (t, h)).toList := by
  cases hreport : i.report? <;> simp [reports, hreport]

theorem reports_concat_of_none {i : Incident} (hi : i.report? = none) (log : Log) (t : Nat) :
    reports (log ++ [(t, i)]) = log.reports := by
  rw [reports_concat, hi]
  exact List.append_nil _

theorem beats_concat_of_none {i : Incident} (hi : i.report? = none) (log : Log) (t : Nat) :
    beats (log ++ [(t, i)]) = log.beats := by
  rw [beats, reports_concat_of_none hi, beats]

theorem beats_published (log : Log) (t : Nat) (h : Heartbeat) (refusal : Option String) :
    beats (log ++ [(t, .published h refusal)]) =
      if h.state = .registered then log.beats ++ [(t, h)] else log.beats := by
  rw [beats, reports_concat, Incident.report?, List.filter_append, beats]
  by_cases hstate : h.state = .registered <;> simp [hstate]

theorem not_mem_concat {i j : Incident} (hlog : ∀ t, (t, j) ∉ log) (hij : i ≠ j) (t t' : Nat) :
    (t', j) ∉ log ++ [(t, i)] := by
  intro hmem
  rcases List.mem_append.mp hmem with hmem | hmem
  · exact hlog t' hmem
  · cases List.mem_singleton.mp hmem
    exact hij rfl

end Log

section

variable {s₀ : Session} {log : Log} {t : Nat} {i : Incident}

theorem not_concat_prefix_nil {past : Log} {x : Nat × Incident} : ¬past ++ [x] <+: [] := fun h =>
  List.append_ne_nil_of_right_ne_nil past (List.cons_ne_nil x []) (List.prefix_nil.mp h)

theorem orderly_nil (s₀ : Session) : Orderly s₀ [] :=
  ⟨fun _ _ _ h => absurd h not_concat_prefix_nil, fun _ _ _ h => absurd h not_concat_prefix_nil⟩

theorem heard_nil (s₀ : Session) : Heard s₀ [] := fun _ _ _ h => absurd h not_concat_prefix_nil

theorem Orderly.concat (h : Orderly s₀ log) (hpermitted : Permitted s₀ log t i)
    (hrunning : i.isReceived = false → ∀ t', (t', .stopped) ∉ log) : Orderly s₀ (log ++ [(t, i)]) where
  permitted past t' i' hpast := by
    rcases Log.of_concat_prefix hpast with hpast | ⟨rfl, heq⟩
    · exact h.permitted past t' i' hpast
    · cases heq
      exact hpermitted
  silent past t' i' hpast := by
    rcases Log.of_concat_prefix hpast with hpast | ⟨rfl, heq⟩
    · exact h.silent past t' i' hpast
    · cases heq
      exact hrunning

theorem Orderly.receive (h : Orderly s₀ log) (r : Nat) (m : Message) :
    Orderly s₀ (log ++ [(r, .received m)]) :=
  h.concat (.received m) fun hown => Bool.noConfusion hown

theorem Heard.concat (h : Heard s₀ log) (hown : i.isReceived = false) : Heard s₀ (log ++ [(t, i)]) := by
  intro past r m hpast p hb k hlatest hstate hack hidentifier
  rcases Log.of_concat_prefix hpast with hpast | ⟨-, heq⟩
  · exact (h past r m hpast p hb k hlatest hstate hack hidentifier).trans (List.prefix_append _ _)
  · cases heq
    cases hown

/-- A message comes that is no acknowledgement of an attempt under way. -/
theorem Heard.other (h : Heard s₀ log) {r : Nat} {m : Message}
    (hother : ∀ p h k, log.Latest p (.published h none) → h.state = .registering →
      m.ackFor? s₀.agent.name = some k → k.identifier ≠ h.identifier) :
    Heard s₀ (log ++ [(r, .received m)]) := by
  intro past r' m' hpast p hb k hlatest hstate hack hidentifier
  rcases Log.of_concat_prefix hpast with hpast | ⟨rfl, heq⟩
  · exact (h past r' m' hpast p hb k hlatest hstate hack hidentifier).trans (List.prefix_append _ _)
  · cases heq
    exact absurd hidentifier (hother p hb k hlatest hstate hack)

/-- An acknowledgement comes, and with it the end that it brings to the attempt under way. -/
theorem Heard.answer (h : Heard s₀ log) {r : Nat} {m : Message} {k : Ack}
    (hack : m.ackFor? s₀.agent.name = some k) :
    Heard s₀ (log ++ [(r, .received m)] ++ [(r, .ofAck k)]) := by
  intro past r' m' hpast p hb k' hlatest hstate hack' hidentifier
  rcases Log.of_concat_prefix hpast with hpast | ⟨-, heq⟩
  · rcases Log.of_concat_prefix hpast with hpast | ⟨rfl, heq⟩
    · have hgrown := (List.prefix_append log [(r, .received m)]).trans
        (List.prefix_append _ [(r, .ofAck k)])
      exact (h past r' m' hpast p hb k' hlatest hstate hack' hidentifier).trans hgrown
    · cases heq
      cases hack.symm.trans hack'
      exact List.prefix_rfl
  · have hown := isReceived_ofAck k
    rw [← (Prod.mk.inj heq).2] at hown
    cases hown

end

/-! ## The state and the log -/

/-- The session has the settings of `s₀` and belongs to the same run of the agent. -/
structure Alike (s₀ s : Session) : Prop where
  name : s.agent.name = s₀.agent.name
  seqnum : s.agent.seqnum = s₀.agent.seqnum
  ackWait : s.ackWait = s₀.ackWait
  backoff : s.backoff = s₀.backoff
  interval : s.interval = s₀.interval

/-- The agent has not registered so far. -/
structure Log.Unregistered (log : Log) : Prop where
  ungranted : ∀ g k, (g, .granted k) ∉ log
  beats : log.beats = []

/-- The latest that the session did was to make a report, as an attempt to register. -/
structure Log.Underway (log : Log) (p : Nat) (h : Heartbeat) (refusal : Option String) : Prop where
  latest : log.Latest p (.published h refusal)
  state : h.state = .registering
  unregistered : log.Unregistered

/-- How the log tells what the session is doing at a time, and who waits for an acknowledgement. -/
inductive Stands (s₀ : Session) (log : Log) (now : Nat) : List Waiter → Stage → Prop where
  | starting (hown : log.own = []) (hunregistered : log.Unregistered) : Stands s₀ log now [] .starting
  | waiting {p : Nat} {h : Heartbeat} (hunderway : log.Underway p h none) (hafter : p ≤ now)
      (hbefore : now < p + s₀.ackWait) :
      Stands s₀ log now [⟨h.identifier, h.identifier, p, p + s₀.ackWait⟩]
        (.waiting h.identifier (p + s₀.ackWait))
  | resting {f : Nat} {e : RegistrationError} (hlatest : log.Latest f (.failed e))
      (hunregistered : log.Unregistered) (hbefore : now ≤ f + s₀.backoff) :
      Stands s₀ log now [] (.resting e (f + s₀.backoff))
  | registered {g : Nat} {k : Ack} (hgranted : (g, .granted k) ∈ log)
      (hlatest : ∀ p h refusal, log.Latest p (.published h refusal) → h.state = .registered)
      (hbefore : now ≤ g + (log.beats.length + 1) * s₀.interval) :
      Stands s₀ log now [] (.registered k (g + (log.beats.length + 1) * s₀.interval))
  | stopped {t : Nat} (hlatest : log.Latest t .stopped) : Stands s₀ log now [] .stopped

/-- The session does what its log tells, and what the log tells is by the rules. -/
structure Sound (s₀ : Session) (log : Log) (s : Session) : Prop where
  alike : Alike s₀ s
  stored : ∀ i k, s.agent.acks.get? i = some k → log.Received s₀.agent.name i k
  stands : Stands s₀ log s.now s.agent.acks.waiters s.stage
  running : s.stage ≠ .stopped → ∀ t, (t, .stopped) ∉ log
  orderly : Orderly s₀ log
  heard : Heard s₀ log

/-- An attempt whose report has been made, while nobody waits for its acknowledgement. -/
structure Pending (s₀ : Session) (log : Log) (s : Session) : Prop where
  alike : Alike s₀ s
  stored : ∀ i k, s.agent.acks.get? i = some k → log.Received s₀.agent.name i k
  waiters : s.agent.acks.waiters = []
  unregistered : log.Unregistered
  running : ∀ t, (t, .stopped) ∉ log
  orderly : Orderly s₀ log

section

variable {s₀ s : Session} {log : Log} {p : Nat} {h : Heartbeat} {refusal : Option String}

theorem Alike.update (halike : Alike s₀ s) (acks : Correlation Ack) (stage : Stage) :
    Alike s₀ { s.withAcks acks with stage } :=
  ⟨halike.name, halike.seqnum, halike.ackWait, halike.backoff, halike.interval⟩

theorem Alike.conclude (halike : Alike s₀ s) (r : Except RegistrationError Ack) : Alike s₀ (s.conclude r) := by
  cases r <;> exact halike.update s.agent.acks _

theorem Pending.update (hs : Pending s₀ log s) {acks : Correlation Ack} (hwaiters : acks.waiters = [])
    (hstored : ∀ i k, acks.get? i = some k → log.Received s₀.agent.name i k) :
    Pending s₀ log (s.withAcks acks) :=
  ⟨hs.alike.update acks s.stage, hstored, hwaiters, hs.unregistered, hs.running, hs.orderly⟩

theorem Log.Unregistered.concat_of_none (hlog : log.Unregistered) {t : Nat} {i : Incident}
    (hreport : i.report? = none) (hi : ∀ k, i ≠ .granted k) : Log.Unregistered (log ++ [(t, i)]) :=
  ⟨fun g k => Log.not_mem_concat (fun g' => hlog.ungranted g' k) (hi k) t g,
    (Log.beats_concat_of_none hreport log t).trans hlog.beats⟩

theorem Log.Unregistered.published (hlog : log.Unregistered) {t : Nat} (hstate : h.state = .registering)
    (refusal : Option String) : Log.Unregistered (log ++ [(t, .published h refusal)]) := by
  refine ⟨fun g k => Log.not_mem_concat (fun g' => hlog.ungranted g' k) (by simp) t g, ?_⟩
  rw [Log.beats_published, hstate, if_neg (by simp), hlog.beats]

theorem Log.Underway.receive (hunderway : log.Underway p h refusal) (r : Nat) (m : Message) :
    Log.Underway (log ++ [(r, .received m)]) p h refusal :=
  ⟨Log.latest_received.mpr hunderway.latest, hunderway.state, hunderway.unregistered.concat_of_none rfl nofun⟩

/-- An acknowledgement may end the attempt within the time for which it is awaited. -/
theorem Log.Underway.permitted_ofAck (hunderway : log.Underway p h none) {t : Nat} {k : Ack}
    (hafter : p ≤ t) (hbefore : t ≤ p + s₀.ackWait)
    (hreceived : log.Received s₀.agent.name h.identifier k) : Permitted s₀ log t (.ofAck k) := by
  rw [Incident.ofAck]
  split
  · next haccepted => exact .granted hunderway.latest hunderway.state hafter hbefore hreceived haccepted
  · next haccepted =>
    rw [hreceived.1]
    exact .rejected hunderway.latest hunderway.state hafter hbefore hreceived
      (Bool.not_eq_true _ ▸ haccepted)

/-- An attempt comes to its end. -/
theorem Pending.conclude (hs : Pending s₀ log s) {r : Except RegistrationError Ack}
    (hpermitted : Permitted s₀ log s.now (.ofResult r))
    (hheard : Heard s₀ (log ++ [(s.now, .ofResult r)])) :
    Sound s₀ (log ++ (s.conclude r).ending true) (s.conclude r) := by
  rw [ending_conclude]
  refine ⟨hs.alike.conclude r, fun i k hk => ?_, ?_, fun _ => Log.not_mem_concat hs.running ?_ s.now,
    hs.orderly.concat hpermitted fun _ => hs.running, hheard⟩
  · rw [agent_conclude] at hk
    exact (hs.stored i k hk).append _
  · rw [agent_conclude, hs.waiters]
    cases r with
    | error e =>
        change Stands s₀ (log ++ [(s.now, .failed e)]) s.now [] (.resting e (s.now + s.backoff))
        rw [hs.alike.backoff]
        refine .resting ((Log.latest_concat rfl).mpr ⟨rfl, rfl⟩) ?_ (Nat.le_add_right _ _)
        exact hs.unregistered.concat_of_none rfl nofun
    | ok k =>
        have hbeats : Log.beats (log ++ [(s.now, .granted k)]) = [] := by
          rw [Log.beats_concat_of_none rfl, hs.unregistered.beats]
        have hnext : s.now + s.interval =
            s.now + ((Log.beats (log ++ [(s.now, .granted k)])).length + 1) * s₀.interval := by
          rw [hbeats, hs.alike.interval, List.length_nil, Nat.zero_add, Nat.one_mul]
        change Stands s₀ (log ++ [(s.now, .granted k)]) s.now [] (.registered k (s.now + s.interval))
        rw [hnext]
        refine .registered (List.mem_append_right _ List.mem_cons_self) (fun p h refusal hlatest => ?_)
          (Nat.le_add_right _ _)
        cases ((Log.latest_concat rfl).mp hlatest).2
  · cases r <;> simp [Incident.ofResult]

/-! ## Steps -/

/-- Waiting for the acknowledgement of an attempt that was published. -/
theorem Pending.await (hs : Pending s₀ log s) (hheard : Heard s₀ log)
    (hunderway : log.Underway s.now h none) :
    Sound s₀ (log ++ (s.await h.identifier).ending true) (s.await h.identifier) := by
  cases hk : s.agent.acks.get? h.identifier with
  | some k =>
      have hpending : Pending s₀ log
          (s.withAcks { s.agent.acks with entries := s.agent.acks.entries.erase h.identifier }) :=
        hs.update hs.waiters fun i k' hk' => hs.stored i k' (Correlation.of_get?_erase hk')
      rw [await_of_stored hk]
      refine hpending.conclude ?_ (hheard.concat (isReceived_ofResult _))
      rw [ofResult_judge_some]
      exact hunderway.permitted_ofAck (Nat.le_refl _) (Nat.le_add_right _ _) (hs.stored _ k hk)
  | none =>
      rw [await_of_missing hk]
      split
      · next hzero =>
        refine hs.conclude ?_ (hheard.concat rfl)
        rw [judge, hs.alike.ackWait]
        refine .timeout hunderway.latest hunderway.state ?_
        rw [← hs.alike.ackWait, hzero, Nat.add_zero]
      · next hpositive =>
        rw [hs.alike.ackWait] at hpositive ⊢
        rw [ending, outcome?, if_pos rfl, Option.map_none, Option.toList_none, List.append_nil]
        refine ⟨hs.alike.update _ _, hs.stored, ?_, fun _ => hs.running, hs.orderly, hheard⟩
        change Stands s₀ log s.now
          (s.agent.acks.waiters ++ [⟨h.identifier, h.identifier, s.now, s.now + s₀.ackWait⟩])
          (.waiting h.identifier (s.now + s₀.ackWait))
        rw [hs.waiters, List.nil_append]
        exact .waiting hunderway (Nat.le_refl _) (Nat.lt_add_of_pos_right (Nat.pos_of_ne_zero hpositive))

theorem ending_of_same_stage {s' : Session} (hstage : s'.stage = s.stage) :
    s'.ending s.awaited?.isSome = [] := by
  rw [ending, outcome?, awaited?, hstage]
  cases s.stage <;> rfl

/-- An attempt is made. -/
theorem Sound.attempt (hs : Sound s₀ log s) (hunregistered : log.Unregistered)
    (hrunning : ∀ t, (t, .stopped) ∉ log) (hwaiters : s.agent.acks.waiters = [])
    (hstage : ∀ k t, s.stage ≠ .registered k t) (hname : h.name = s₀.agent.name)
    (hseqnum : h.seqnum = s₀.agent.seqnum) (hstate : h.state = .registering)
    (hnew : h.identifier ∉ log.identifiers)
    (hwhen : log.own = [] ∨ ∃ f e, log.Latest f (.failed e) ∧ s.now = f + s₀.backoff)
    (refusal : Option String) :
    Sound s₀ (log ++ [(s.now, .published h refusal)] ++ (s.reported h.identifier refusal).ending true)
      (s.reported h.identifier refusal) := by
  have hunderway : Log.Underway (log ++ [(s.now, .published h refusal)]) s.now h refusal :=
    ⟨(Log.latest_concat rfl).mpr ⟨rfl, rfl⟩, hstate, hunregistered.published hstate refusal⟩
  have hpending : Pending s₀ (log ++ [(s.now, .published h refusal)]) s :=
    ⟨hs.alike, fun i k hk => (hs.stored i k hk).append _, hwaiters, hunderway.unregistered,
      Log.not_mem_concat hrunning (by simp) s.now,
      hs.orderly.concat (.attempt hname hseqnum hstate hnew hunregistered.ungranted hwhen) fun _ => hrunning⟩
  have hheard : Heard s₀ (log ++ [(s.now, .published h refusal)]) := hs.heard.concat rfl
  rw [reported_of_unregistered hstage]
  cases refusal with
  | some reason => exact hpending.conclude (.refused hunderway.latest hstate) (hheard.concat rfl)
  | none => exact hpending.await hheard hunderway

/-- A report of the registered agent is made. -/
theorem Sound.beat (hs : Sound s₀ log s) {k : Ack} {next : Nat} (hstage : s.stage = .registered k next)
    (hdue : next ≤ s.now) (hname : h.name = s₀.agent.name) (hseqnum : h.seqnum = s₀.agent.seqnum)
    (hstate : h.state = .registered) (refusal : Option String) :
    Sound s₀ (log ++ [(s.now, .published h refusal)]) (s.reported h.identifier refusal) := by
  have hstands := hs.stands
  generalize hwaiters : s.agent.acks.waiters = waiters at hstands
  rw [hstage] at hstands
  have hrunning := hs.running (by simp [hstage])
  cases hstands with
  | @registered g _ hgranted hlatest hbefore =>
      have hnow : s.now = g + (log.beats.length + 1) * s₀.interval := Nat.le_antisymm hbefore hdue
      have hbeats : (Log.beats (log ++ [(s.now, .published h refusal)])).length = log.beats.length + 1 := by
        rw [Log.beats_published, if_pos hstate, List.length_append, List.length_singleton]
      have hnext : g + (log.beats.length + 1) * s₀.interval + s.interval =
          g + ((Log.beats (log ++ [(s.now, .published h refusal)])).length + 1) * s₀.interval := by
        rw [hbeats, hs.alike.interval, Nat.add_assoc, ← Nat.succ_mul]
      rw [reported_of_registered hstage]
      refine ⟨hs.alike.update s.agent.acks _, fun i k hk => (hs.stored i k hk).append _, ?_,
        fun _ => Log.not_mem_concat hrunning (by simp) s.now,
        hs.orderly.concat (.beat hname hseqnum hstate hgranted hnow) fun _ => hrunning, hs.heard.concat rfl⟩
      change Stands s₀ _ s.now s.agent.acks.waiters (.registered k _)
      rw [hwaiters, hnext]
      refine .registered (List.mem_append_left _ hgranted) (fun p h' r hlatest' => ?_) ?_
      · cases ((Log.latest_concat rfl).mp hlatest').2
        exact hstate
      · rw [← hnext, ← hnow]
        exact Nat.le_add_right _ _

theorem Sound.report (hs : Sound s₀ log s) {state : AgentState} (hdue : s.due? = some state)
    (status : NodeStatus) {identifier : String} (timestamp : Int64) (refusal : Option String)
    (hnew : state = .registering → identifier ∉ log.identifiers) :
    Sound s₀
      (log ++ [(s.now, .published (s.report status state identifier timestamp) refusal)] ++
        (s.reported identifier refusal).ending (state = .registering))
      (s.reported identifier refusal) := by
  have hname : (s.report status state identifier timestamp).name = s₀.agent.name := hs.alike.name
  have hseqnum : (s.report status state identifier timestamp).seqnum = s₀.agent.seqnum := hs.alike.seqnum
  have hstate : (s.report status state identifier timestamp).state = state := rfl
  have hidentifier : (s.report status state identifier timestamp).identifier = identifier := rfl
  generalize s.report status state identifier timestamp = h at *
  subst hidentifier
  have hstands := hs.stands
  generalize hwaiters : s.agent.acks.waiters = waiters at hstands
  rw [due?] at hdue
  cases hstage : s.stage with
  | starting =>
      rw [hstage] at hstands hdue
      cases hdue
      cases hstands with
      | starting hown hunregistered =>
          exact hs.attempt hunregistered (hs.running (by simp [hstage])) hwaiters (by simp [hstage]) hname
            hseqnum hstate (hnew rfl) (.inl hown) refusal
  | resting e again =>
      rw [hstage] at hstands
      simp only [hstage, Option.ite_none_right_eq_some, Option.some.injEq] at hdue
      obtain ⟨htime, rfl⟩ := hdue
      cases hstands with
      | @resting f _ hlatest hunregistered hbefore =>
          exact hs.attempt hunregistered (hs.running (by simp [hstage])) hwaiters (by simp [hstage]) hname
            hseqnum hstate (hnew rfl) (.inr ⟨f, e, hlatest, Nat.le_antisymm hbefore htime⟩) refusal
  | registered k next =>
      simp only [hstage, Option.ite_none_right_eq_some, Option.some.injEq] at hdue
      obtain ⟨htime, rfl⟩ := hdue
      have hnone : (s.reported h.identifier refusal).ending (AgentState.registered = .registering) = [] := rfl
      rw [hnone, List.append_nil]
      exact hs.beat hstage htime hname hseqnum hstate refusal
  | waiting i deadline => simp [hstage] at hdue
  | stopped => simp [hstage] at hdue

/-- What stays as it is when a message comes. -/
theorem Stands.receive {now : Nat} {waiters : List Waiter} {stage : Stage}
    (hstands : Stands s₀ log now waiters stage) (r : Nat) (m : Message) :
    Stands s₀ (log ++ [(r, .received m)]) now waiters stage := by
  have hbeats : Log.beats (log ++ [(r, .received m)]) = log.beats := Log.beats_concat_of_none rfl log r
  cases hstands with
  | starting hown hunregistered =>
      exact .starting ((Log.own_received log r m).trans hown) (hunregistered.concat_of_none rfl nofun)
  | waiting hunderway hafter hbefore =>
      exact .waiting (hunderway.receive r m) hafter hbefore
  | resting hlatest hunregistered hbefore =>
      exact .resting (Log.latest_received.mpr hlatest) (hunregistered.concat_of_none rfl nofun) hbefore
  | @registered g _ hgranted hlatest hbefore =>
      rw [← hbeats] at hbefore ⊢
      exact .registered (List.mem_append_left _ hgranted)
        (fun p h refusal hl => hlatest p h refusal (Log.latest_received.mp hl)) hbefore
  | stopped hlatest => exact .stopped (Log.latest_received.mpr hlatest)

/-- A session that has made an attempt and nothing since waits for its acknowledgement. -/
theorem Stands.waiters_of_latest {now : Nat} {waiters : List Waiter} {stage : Stage}
    (hstands : Stands s₀ log now waiters stage) (hlatest : log.Latest p (.published h none))
    (hstate : h.state = .registering) :
    waiters = [⟨h.identifier, h.identifier, p, p + s₀.ackWait⟩] := by
  cases hstands with
  | starting hown =>
      rw [Log.Latest, hown] at hlatest
      cases hlatest
  | waiting hunderway =>
      cases Option.some.inj (hunderway.latest.symm.trans hlatest)
      rfl
  | resting hlatest' => cases Option.some.inj (hlatest'.symm.trans hlatest)
  | registered hgranted hbeat =>
      rw [hbeat p h none hlatest] at hstate
      cases hstate
  | stopped hlatest' => cases Option.some.inj (hlatest'.symm.trans hlatest)

/-- Who waits is the session, for the acknowledgement of its latest attempt. -/
theorem Stands.of_mem {now : Nat} {waiters : List Waiter} {stage : Stage}
    (hstands : Stands s₀ log now waiters stage) {w : Waiter} (hw : w ∈ waiters) :
    ∃ p h, log.Underway p h none ∧ p ≤ now ∧ now < p + s₀.ackWait ∧
      waiters = [⟨h.identifier, h.identifier, p, p + s₀.ackWait⟩] ∧
      stage = .waiting h.identifier (p + s₀.ackWait) := by
  cases hstands with
  | @waiting p h hunderway hafter hbefore => exact ⟨p, h, hunderway, hafter, hbefore, rfl, rfl⟩
  | _ => cases hw

/-- A message comes that ends no attempt. -/
theorem Sound.hear (hs : Sound s₀ log s) (s' : Session) (halike : Alike s₀ s') (hnow : s'.now = s.now)
    (hstage : s'.stage = s.stage) (hwaiters : s'.agent.acks.waiters = s.agent.acks.waiters) (m : Message)
    (hstored : ∀ i k, s'.agent.acks.get? i = some k → s.agent.acks.get? i = some k ∨
      i = k.identifier ∧ m.ackFor? s₀.agent.name = some k)
    (hother : ∀ k, m.ackFor? s₀.agent.name = some k →
      ∀ w ∈ s.agent.acks.waiters, w.key ≠ k.identifier) :
    Sound s₀ (log ++ [(s.now, .received m)] ++ s'.ending s.awaited?.isSome) s' := by
  rw [ending_of_same_stage hstage]
  have hheard : Heard s₀ (log ++ [(s.now, .received m)]) := by
    refine hs.heard.other fun p h k hlatest hstate hack hidentifier => ?_
    have hw := hs.stands.waiters_of_latest hlatest hstate
    exact hother k hack _ (hw ▸ List.mem_cons_self) hidentifier.symm
  rw [List.append_nil]
  refine ⟨halike, fun i k hk => ?_, ?_, fun hrunning => ?_, hs.orderly.receive s.now m, hheard⟩
  · rcases hstored i k hk with hold | ⟨rfl, hack⟩
    · exact (hs.stored i k hold).append _
    · exact ⟨rfl, s.now, m, List.mem_append_right _ List.mem_cons_self, hack⟩
  · rw [hnow, hwaiters, hstage]
    exact hs.stands.receive s.now m
  · rw [hstage] at hrunning
    exact Log.not_mem_concat (hs.running hrunning) (by simp) s.now

/-- The acknowledgement of the attempt under way comes. -/
theorem Sound.answer (hs : Sound s₀ log s) {m : Message} {k : Ack} (hack : m.ackFor? s₀.agent.name = some k)
    {w : Waiter} (hw : w ∈ s.agent.acks.waiters) (hkey : w.key = k.identifier) :
    Sound s₀ (log ++ [(s.now, .received m)] ++ (s.acknowledge k).ending s.awaited?.isSome)
      (s.acknowledge k) := by
  obtain ⟨p, h, hunderway, hafter, hbefore, hwaiters, hstage⟩ := hs.stands.of_mem hw
  rw [hwaiters, List.mem_singleton] at hw
  subst hw
  have hawaited : s.awaited?.isSome = true := Option.isSome_iff_exists.mpr ⟨_, awaited?_of_waiting hstage⟩
  have hrunning := hs.running (by simp [hstage])
  have hunderway' := hunderway.receive s.now m
  have hreceived : Log.Received (log ++ [(s.now, .received m)]) s₀.agent.name h.identifier k :=
    ⟨hkey.symm, s.now, m, List.mem_append_right _ List.mem_cons_self, hack⟩
  have hpending : Pending s₀ (log ++ [(s.now, .received m)]) (s.withAcks { s.agent.acks with
      entries := s.agent.acks.entries.erase k.identifier, waiters := [] }) := by
    refine ⟨hs.alike.update _ _, fun i k' hk' => (hs.stored i k' ?_).append _, rfl, hunderway'.unregistered,
      Log.not_mem_concat hrunning (by simp) s.now, hs.orderly.receive s.now m⟩
    exact Correlation.of_get?_erase hk'
  rw [hawaited, acknowledge_of_awaited hwaiters hkey]
  refine hpending.conclude ?_ ?_
  · rw [ofResult_judge_some]
    exact hunderway'.permitted_ofAck hafter (Nat.le_of_lt hbefore) hreceived
  · rw [ofResult_judge_some]
    exact hs.heard.answer hack

theorem Sound.receive (hs : Sound s₀ log s) (m : Message) :
    Sound s₀ (log ++ [(s.now, .received m)] ++ (s.receive m.topic m.payload).ending s.awaited?.isSome)
      (s.receive m.topic m.payload) := by
  cases hfor : m.ackFor? s.agent.name with
  | none =>
      obtain ⟨workloads, hreceive⟩ := Agent.receive_of_ackFor?_none hfor
      have hsame : s.receive m.topic m.payload = { s with agent := { s.agent with workloads } } := by
        rw [Session.receive, hreceive]
        rfl
      have halike : Alike s₀ { s with agent := { s.agent with workloads } } :=
        ⟨hs.alike.name, hs.alike.seqnum, hs.alike.ackWait, hs.alike.backoff, hs.alike.interval⟩
      rw [hs.alike.name] at hfor
      rw [hsame]
      refine hs.hear _ halike rfl rfl rfl m (fun i k hk => .inl hk) fun k hack => ?_
      rw [hfor] at hack
      cases hack
  | some k =>
      have hacknowledge : s.receive m.topic m.payload = s.acknowledge k := by
        rw [Session.receive, Agent.receive_of_ackFor? hfor]
        rfl
      rw [hs.alike.name] at hfor
      rw [hacknowledge]
      by_cases hother : ∀ w ∈ s.agent.acks.waiters, w.key ≠ k.identifier
      · have halike : Alike s₀ (s.withAcks { s.agent.acks with
            entries := s.agent.acks.entries.insert k.identifier ⟨k, s.now⟩ }) := hs.alike.update _ _
        rw [acknowledge_of_other hother]
        refine hs.hear _ halike rfl rfl rfl m (fun i k' hk' => ?_) fun k' hack => ?_
        · have hk' := (Correlation.get?_insert k).symm.trans hk'
          split at hk'
          · next hi =>
            cases hk'
            exact .inr ⟨hi, hfor⟩
          · exact .inl hk'
        · cases hfor.symm.trans hack
          exact hother
      · push Not at hother
        obtain ⟨w, hw, hkey⟩ := hother
        exact hs.answer hfor hw hkey

/-- Time passes that ends no attempt. -/
theorem Sound.sleep (hs : Sound s₀ log s) (duration : Nat)
    (hbefore : ∀ w ∈ s.agent.acks.waiters, s.now + duration < w.deadline)
    (hstands : Stands s₀ log (s.now + duration) s.agent.acks.waiters s.stage) :
    Sound s₀ (log ++ (s.pass duration).ending s.awaited?.isSome) (s.pass duration) := by
  obtain ⟨hpass, hwaiters⟩ := pass_of_before hbefore
  have hstage : (s.withAcks (s.agent.acks.advance duration).2).stage = s.stage := rfl
  rw [hpass, ending_of_same_stage hstage, List.append_nil]
  refine ⟨hs.alike.update _ _, fun i k hk => hs.stored i k (Correlation.of_get?_advance hk), ?_, hs.running,
    hs.orderly, hs.heard⟩
  change Stands s₀ log (s.agent.acks.advance duration).2.now (s.agent.acks.advance duration).2.waiters s.stage
  rw [hwaiters, Correlation.now_advance]
  exact hstands

theorem Sound.pass (hs : Sound s₀ log s) {duration : Nat}
    (hidle : s.stage = .starting ∨ s.due? = none ∧ ∀ t ∈ s.wake?, s.now + duration ≤ t) :
    Sound s₀ (log ++ (s.pass duration).ending s.awaited?.isSome) (s.pass duration) := by
  have hstands := hs.stands
  have hsleep := hs.sleep duration
  have hwake : s.stage = .starting ∨ ∀ t, s.wake? = some t → s.now + duration ≤ t := hidle.imp_right (·.2)
  rw [wake?] at hwake
  generalize hwaiters : s.agent.acks.waiters = waiters at hstands hsleep
  generalize hstage : s.stage = stage at hstands hsleep hwake
  cases hstands with
  | starting hown hunregistered => exact hsleep (List.forall_mem_nil _) (.starting hown hunregistered)
  | @waiting p h hunderway hafter hbefore =>
      have hlimit : s.now + duration ≤ p + s₀.ackWait := hwake.resolve_left Stage.noConfusion _ rfl
      -- No time passes beyond the deadline, so the wait is over when it comes or goes on.
      rcases Nat.lt_or_eq_of_le hlimit with hearly | hdue
      · refine hsleep (fun w hw => ?_) (.waiting hunderway (by omega) hearly)
        rw [List.mem_singleton.mp hw]
        exact hearly
      · obtain ⟨hpass, hnone⟩ := pass_of_due hwaiters (Nat.le_of_eq hdue.symm)
        have hawaited : s.awaited?.isSome = true :=
          Option.isSome_iff_exists.mpr ⟨_, awaited?_of_waiting hstage⟩
        have hpending : Pending s₀ log (s.withAcks (s.agent.acks.advance duration).2) :=
          ⟨hs.alike.update _ _, fun i k hk => hs.stored i k (Correlation.of_get?_advance hk), hnone,
            hunderway.unregistered, hs.running (by simp [hstage]), hs.orderly⟩
        have hnow : (s.withAcks (s.agent.acks.advance duration).2).now = p + s₀.ackWait :=
          (Correlation.now_advance duration).trans hdue
        rw [hpass, hawaited]
        refine hpending.conclude ?_ (hs.heard.concat (isReceived_ofResult _))
        rw [hnow, judge, hs.alike.ackWait]
        exact .timeout hunderway.latest hunderway.state rfl
  | resting hlatest hunregistered hbefore =>
      have hlimit := hwake.resolve_left Stage.noConfusion _ rfl
      exact hsleep (List.forall_mem_nil _) (.resting hlatest hunregistered hlimit)
  | registered hgranted hlatest hbefore =>
      have hlimit := hwake.resolve_left Stage.noConfusion _ rfl
      exact hsleep (List.forall_mem_nil _) (.registered hgranted hlatest hlimit)
  | stopped hlatest => exact hsleep (List.forall_mem_nil _) (.stopped hlatest)

theorem Stands.stop (hstands : Stands s₀ log s.now s.agent.acks.waiters s.stage) :
    s.stop = { s.withAcks { s.agent.acks with waiters := [] } with stage := .stopped } := by
  generalize hwaiters : s.agent.acks.waiters = waiters at hstands
  generalize hstage : s.stage = stage at hstands
  cases hstands with
  | waiting => simp [Session.stop, hstage, Correlation.cancel, hwaiters, withAcks]
  | _ =>
      have hacks : { s.agent.acks with waiters := [] } = s.agent.acks := by rw [← hwaiters]
      simp [Session.stop, hstage, hacks, withAcks]

theorem Sound.stop (hs : Sound s₀ log s) (hstage : s.stage ≠ .stopped) :
    Sound s₀ (log ++ [(s.now, .stopped)]) s.stop := by
  have hrunning := hs.running hstage
  rw [hs.stands.stop]
  refine ⟨hs.alike.update _ _, fun i k hk => (hs.stored i k hk).append _, ?_, fun hnot => absurd rfl hnot,
    hs.orderly.concat .stopped fun _ => hrunning, hs.heard.concat rfl⟩
  exact .stopped ((Log.latest_concat rfl).mpr ⟨rfl, rfl⟩)

theorem Course.sound (hcourse : Course s₀ log s) : Sound s₀ log s := by
  induction hcourse with
  | start hstage hentries hwaiters =>
      refine ⟨⟨rfl, rfl, rfl, rfl, rfl⟩, fun i k hk => ?_, ?_, fun _ _ => List.not_mem_nil, orderly_nil s₀,
        heard_nil s₀⟩
      · simp [Correlation.get?, hentries] at hk
      · rw [hstage, hwaiters]
        exact .starting rfl ⟨fun _ _ => List.not_mem_nil, rfl⟩
  | report _ status state identifier timestamp refusal hdue hnew ih =>
      exact ih.report hdue status timestamp refusal hnew
  | receive _ m ih => exact ih.receive m
  | pass _ duration hidle ih => exact ih.pass hidle
  | stop _ hstage ih => exact ih.stop hstage

end

end EdgeFleet.Session
