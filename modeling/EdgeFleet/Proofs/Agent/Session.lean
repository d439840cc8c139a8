import EdgeFleet.Agent.Session
import EdgeFleet.Proofs.Agent.Correlation
import EdgeFleet.Proofs.Agent.Inbound

/-! # Steps of a session

What a session keeps of the acknowledgements that come, for which one it waits, and with which one it
registers.
-/

namespace EdgeFleet

namespace Session

/-- The report whose acknowledgement the session waits for. -/
def awaited? (s : Session) : Option String :=
  match s.stage with
  | .waiting identifier _ => some identifier
  | _ => none

/-- The acknowledgement with which the session has registered. -/
def granted? (s : Session) : Option Ack :=
  match s.stage with
  | .registered ack _ => some ack
  | _ => none

theorem awaited?_of_waiting {s : Session} {i : String} {deadline : Nat}
    (h : s.stage = .waiting i deadline) : s.awaited? = some i := by
  rw [awaited?, h]

theorem awaited?_of_due {s : Session} {state : AgentState} (h : s.due? = some state) : s.awaited? = none := by
  cases hstage : s.stage with
  | waiting identifier deadline => simp [due?, hstage] at h
  | _ => rw [awaited?, hstage]

/-- Every acknowledgement in store has the property `P`, and nobody waits but the session itself. -/
structure Backed (P : String → Ack → Prop) (s : Session) : Prop where
  stored : ∀ i k, s.agent.acks.get? i = some k → P i k
  waiters : s.agent.acks.waiters.map (fun w => (w.id, w.key)) = s.awaited?.toList.map fun i => (i, i)

/-- What a step of a session may do with the attempt that is under way: the session goes on waiting for
its acknowledgement, or gives it up, or registers with a positive one that has the property `P`. -/
structure Progress (P : String → Ack → Prop) (s : Session) (attempt : Option String) (s' : Session) :
    Prop where
  name : s'.agent.name = s.agent.name
  backed : s'.Backed P
  awaited : ∀ i, s'.awaited? = some i → attempt = some i
  granted : ∀ k, s'.granted? = some k →
    s.granted? = some k ∨ ∃ i, attempt = some i ∧ k.accepted = true ∧ P i k

variable {P : String → Ack → Prop} {s : Session}

theorem Backed.mono {Q : String → Ack → Prop} (h : s.Backed P) (hPQ : ∀ i k, P i k → Q i k) :
    s.Backed Q :=
  ⟨fun i k hk => hPQ i k (h.stored i k hk), h.waiters⟩

theorem Backed.waiters_eq_nil (h : s.Backed P) (hnone : s.awaited? = none) :
    s.agent.acks.waiters = [] := by
  have hwaiters := h.waiters
  rw [hnone] at hwaiters
  exact List.map_eq_nil_iff.mp hwaiters

theorem Backed.exists_waiter (h : s.Backed P) {i : String} (hi : s.awaited? = some i) :
    ∃ w, s.agent.acks.waiters = [w] ∧ w.id = i ∧ w.key = i := by
  have hwaiters := h.waiters
  rw [hi] at hwaiters
  obtain ⟨w, hw, hids⟩ := List.map_eq_singleton_iff.mp hwaiters
  exact ⟨w, hw, congrArg Prod.fst hids, congrArg Prod.snd hids⟩

/-- Whoever waits is the session itself, for the report that it has sent last. -/
theorem Backed.awaited?_of_mem (h : s.Backed P) {w : Waiter} (hw : w ∈ s.agent.acks.waiters) :
    s.awaited? = some w.key ∧ w.id = w.key ∧ s.agent.acks.waiters = [w] := by
  cases hawaited : s.awaited? with
  | none =>
      rw [h.waiters_eq_nil hawaited] at hw
      cases hw
  | some i =>
      obtain ⟨w', hwaiters, hid, hkey⟩ := h.exists_waiter hawaited
      obtain rfl : w = w' := List.mem_singleton.mp (hwaiters ▸ hw)
      rw [hid, hkey]
      exact ⟨rfl, rfl, hwaiters⟩

/-- A step that changes neither the stage nor who waits. -/
theorem Backed.progress_of_same {s' : Session} (h : s.Backed P) (hname : s'.agent.name = s.agent.name)
    (hstored : ∀ i k, s'.agent.acks.get? i = some k → P i k)
    (hwaiters : s'.agent.acks.waiters = s.agent.acks.waiters) (hstage : s'.stage = s.stage) :
    Progress P s s.awaited? s' := by
  have hawaited : s'.awaited? = s.awaited? := by rw [awaited?, awaited?, hstage]
  have hgranted : s'.granted? = s.granted? := by rw [granted?, granted?, hstage]
  refine ⟨hname, ⟨hstored, ?_⟩, fun i hi => hawaited ▸ hi, fun k hk => .inl (hgranted ▸ hk)⟩
  rw [hwaiters, hawaited]
  exact h.waiters

/-! ## The end of an attempt -/

theorem progress_conclude {s₀ : Session} {i : String} {r : Except RegistrationError Ack}
    (hname : s.agent.name = s₀.agent.name) (hstored : ∀ j k, s.agent.acks.get? j = some k → P j k)
    (hwaiters : s.agent.acks.waiters = []) (hr : ∀ k, r = .ok k → k.accepted = true ∧ P i k) :
    Progress P s₀ (some i) (s.conclude r) := by
  have hagent : (s.conclude r).agent = s.agent := by cases r <;> rfl
  have hawaited : (s.conclude r).awaited? = none := by cases r <;> rfl
  refine ⟨by rw [hagent, hname], ⟨by rwa [hagent], ?_⟩, fun j hj => ?_, fun k hk => .inr ⟨i, rfl, ?_⟩⟩
  · rw [hagent, hawaited, hwaiters]
    rfl
  · rw [hawaited] at hj
    cases hj
  · cases r with
    | error e => cases hk
    | ok ack =>
        cases hk
        exact hr _ rfl

/-- An attempt succeeds by a positive acknowledgement only. -/
theorem judge_eq_ok {i : String} {value : Option Ack} {k : Ack} :
    s.judge i value = .ok k ↔ value = some k ∧ k.accepted = true := by
  cases value with
  | none => simp [judge]
  | some ack =>
      by_cases haccepted : ack.accepted = true
      · simp only [judge, haccepted, if_true, Except.ok.injEq, Option.some.injEq]
        exact ⟨fun h => ⟨h, h ▸ haccepted⟩, fun h => h.1⟩
      · simp only [judge, haccepted, Bool.false_eq_true, if_false, reduceCtorEq, Option.some.injEq, false_iff,
          not_and]
        rintro rfl
        exact haccepted

def withAcks (s : Session) (acks : Correlation Ack) : Session := { s with agent := { s.agent with acks } }

theorem progress_resume {acks : Correlation Ack} {ended : Ended Ack}
    (hstored : ∀ j k, acks.get? j = some k → P j k) (hwaiters : acks.waiters = [])
    (hvalue : ∀ k, ended.value = some k → P ended.id k) :
    Progress P s (some ended.id) ((s.withAcks acks).resume (some ended)) := by
  refine progress_conclude rfl hstored hwaiters fun k hk => ?_
  obtain ⟨hsome, haccepted⟩ := judge_eq_ok.mp hk
  exact ⟨haccepted, hvalue k hsome⟩

/-! ## Steps -/

/-- The wait for the acknowledgement of a report that went out. -/
theorem Backed.await (h : s.Backed P) (hnone : s.awaited? = none) (i : String) :
    Progress P s (some i) (s.await i) := by
  have hwaiters := h.waiters_eq_nil hnone
  have hstored : ∀ j k, (s.agent.acks.wait i i s.ackWait).2.get? j = some k → P j k :=
    fun j k hk => h.stored j k (Correlation.of_get?_wait hk)
  rcases hwait : s.agent.acks.wait i i s.ackWait with ⟨_ | ended, acks⟩
  · rw [hwait] at hstored
    have hawait : s.await i =
        { s.withAcks acks with stage := .waiting i ((s.withAcks acks).now + s.ackWait) } := by
      rw [Session.await, hwait]
      rfl
    have hwaiting := Correlation.wait_eq_none hwait
    rw [hwaiters] at hwaiting
    rw [hawait]
    refine ⟨rfl, ⟨hstored, ?_⟩, fun j hj => hj.symm ▸ rfl, fun k hk => by cases hk⟩
    exact congrArg _ hwaiting
  · rw [hwait] at hstored
    have hawait : s.await i = (s.withAcks acks).resume (some ended) := by
      rw [Session.await, hwait]
      rfl
    obtain ⟨rfl, hsame, hvalue⟩ := Correlation.wait_eq_some hwait
    rw [hawait]
    exact progress_resume hstored (hsame.trans hwaiters) fun k hk => h.stored _ k (hvalue k hk)

theorem reported_of_registered {k : Ack} {t : Nat} (h : s.stage = .registered k t) (i : String)
    (refusal : Option String) :
    s.reported i refusal = { s with stage := .registered k (t + s.interval) } := by
  simp only [reported, h]

theorem reported_of_unregistered (h : ∀ k t, s.stage ≠ .registered k t) (i : String)
    (refusal : Option String) :
    s.reported i refusal =
      match refusal with
      | some reason => s.conclude (.error (.transport reason))
      | none => s.await i := by
  cases hstage : s.stage with
  | registered k t => exact absurd hstage (h k t)
  | _ => cases refusal <;> simp only [reported, hstage]

/-- A report went out, or did not. -/
theorem Backed.reported (h : s.Backed P) (hnone : s.awaited? = none) (i : String)
    (refusal : Option String) : Progress P s (some i) (s.reported i refusal) := by
  have hwaiters := h.waiters_eq_nil hnone
  by_cases hregistered : ∃ k t, s.stage = .registered k t
  · obtain ⟨k, t, hstage⟩ := hregistered
    have hgranted : s.granted? = some k := by rw [granted?, hstage]
    rw [reported_of_registered hstage]
    refine ⟨rfl, ⟨h.stored, congrArg _ hwaiters⟩, fun j hj => ?_, fun k' hk' => .inl (hgranted.trans hk')⟩
    cases hj
  · push Not at hregistered
    rw [reported_of_unregistered hregistered]
    cases refusal with
    | none => exact h.await hnone i
    | some reason =>
        refine progress_conclude rfl h.stored hwaiters fun k hk => ?_
        cases hk

theorem acknowledge_eq {k : Ack} {ended : Option (Ended Ack)} {acks : Correlation Ack}
    (hset : s.agent.acks.set k.identifier k = (ended, acks)) :
    s.acknowledge k = (s.withAcks acks).resume ended := by
  rw [acknowledge, Agent.acknowledge, hset]
  rfl

theorem Backed.acknowledge (h : s.Backed P) {k : Ack} (hk : P k.identifier k) :
    Progress P s s.awaited? (s.acknowledge k) := by
  have hstored : ∀ j k', (s.agent.acks.set k.identifier k).2.get? j = some k' → P j k' := by
    intro j k' hk'
    rcases Correlation.of_get?_set hk' with hk' | ⟨rfl, rfl⟩
    · exact h.stored j k' hk'
    · exact hk
  rcases hset : s.agent.acks.set k.identifier k with ⟨ended?, acks⟩
  rw [hset] at hstored
  rw [acknowledge_eq hset]
  cases ended? with
  | none => exact h.progress_of_same rfl hstored (Correlation.set_eq_none hset) rfl
  | some ended =>
      obtain ⟨hvalue, ⟨w, hw, hkey, hid⟩, hrest⟩ := Correlation.set_eq_some hset
      obtain ⟨hawaited, hself, hwaiters⟩ := h.awaited?_of_mem hw
      have hended : ended.id = k.identifier := hid.trans (hself.trans hkey)
      rw [hwaiters, List.eraseP_cons_of_pos (by simpa using hkey)] at hrest
      rw [hawaited, hkey, ← hended]
      refine progress_resume hstored hrest fun k' hk' => ?_
      rw [hvalue] at hk'
      cases hk'
      rwa [hended]

/-- A message comes. Only the acknowledgement that it brings has to have the property. -/
theorem Backed.receive (h : s.Backed P) {m : Message}
    (hack : ∀ k, m.ackFor? s.agent.name = some k → P k.identifier k) :
    Progress P s s.awaited? (s.receive m.topic m.payload) := by
  cases hfor : m.ackFor? s.agent.name with
  | some k =>
      rw [Session.receive, Agent.receive_of_ackFor? hfor]
      exact h.acknowledge (hack k hfor)
  | none =>
      obtain ⟨workloads, hreceive⟩ := Agent.receive_of_ackFor?_none hfor
      rw [Session.receive, hreceive]
      exact h.progress_of_same rfl h.stored rfl rfl

theorem Backed.pass (h : s.Backed P) (duration : Nat) :
    Progress P s s.awaited? (s.pass duration) := by
  have hstored : ∀ j k, (s.agent.acks.advance duration).2.get? j = some k → P j k :=
    fun j k hk => h.stored j k (Correlation.of_get?_advance hk)
  have hended := Correlation.ended_advance (c := s.agent.acks) duration
  have hwaiters := Correlation.waiters_advance (c := s.agent.acks) duration
  rcases hadvance : s.agent.acks.advance duration with ⟨ended, acks⟩
  rw [hadvance] at hstored hended hwaiters
  have hpass : s.pass duration = (s.withAcks acks).resume ended.head? := by
    rw [Session.pass, hadvance]
    rfl
  rw [hpass]
  -- Only the session itself may wait, so at most one wait is over.
  cases hawaited : s.awaited? with
  | none =>
      rw [h.waiters_eq_nil hawaited] at hended hwaiters
      obtain rfl : ended = [] := hended
      rw [← hawaited]
      exact h.progress_of_same rfl hstored (hwaiters.trans (h.waiters_eq_nil hawaited).symm) rfl
  | some i =>
      obtain ⟨w, hw, hid, -⟩ := h.exists_waiter hawaited
      rw [hw, List.filter_singleton] at hended hwaiters
      by_cases hdue : w.deadline ≤ s.agent.acks.now + duration
      · simp only [hdue, decide_true, Bool.not_true, cond_true, cond_false] at hended hwaiters
        obtain ⟨e, rfl, rfl, hvalue⟩ : ∃ e, ended = [e] ∧ e.id = i ∧ e.value = none := ⟨_, hended, hid, rfl⟩
        refine progress_resume hstored hwaiters fun k hk => ?_
        rw [hvalue] at hk
        cases hk
      · simp only [hdue, decide_false, Bool.not_false, cond_true, cond_false] at hended hwaiters
        subst hended
        rw [← hawaited]
        exact h.progress_of_same rfl hstored (hwaiters.trans hw.symm) rfl

/-! ## What an acknowledgement leaves alone -/

/-- Two states of a session between which nothing has happened to attempts with other identifiers
than `i`. -/
structure SameBut (i : String) (s s' : Session) : Prop where
  stored : ∀ j, j ≠ i → s'.agent.acks.get? j = s.agent.acks.get? j
  waiters : s.awaited? ≠ some i → s'.agent.acks.waiters = s.agent.acks.waiters
  stage : s.awaited? ≠ some i → s'.stage = s.stage

theorem agent_resume (s : Session) (ended : Option (Ended Ack)) : (s.resume ended).agent = s.agent := by
  cases ended with
  | none => rfl
  | some e =>
      rw [resume]
      cases s.judge e.id e.value <;> rfl

theorem Backed.sameBut_acknowledge (h : s.Backed P) (k : Ack) :
    SameBut k.identifier s (s.acknowledge k) := by
  have hother : ∀ j, j ≠ k.identifier →
      (s.agent.acks.set k.identifier k).2.get? j = s.agent.acks.get? j :=
    fun j hj => Correlation.get?_set_of_ne hj k
  rcases hset : s.agent.acks.set k.identifier k with ⟨ended?, acks⟩
  rw [hset] at hother
  rw [acknowledge_eq hset]
  cases ended? with
  | none => exact ⟨hother, fun _ => Correlation.set_eq_none hset, fun _ => rfl⟩
  | some ended =>
      obtain ⟨-, ⟨w, hw, hkey, -⟩, -⟩ := Correlation.set_eq_some hset
      have hawaited : s.awaited? = some k.identifier := hkey ▸ (h.awaited?_of_mem hw).1
      exact ⟨fun j hj => by rw [agent_resume]; exact hother j hj, fun hne => absurd hawaited hne,
        fun hne => absurd hawaited hne⟩

theorem Backed.sameBut_receive (h : s.Backed P) (k : Ack) :
    SameBut k.identifier s (s.receive (Message.ofAck k).topic (Message.ofAck k).payload) := by
  cases hfor : (Message.ofAck k).ackFor? s.agent.name with
  | none =>
      obtain ⟨workloads, hreceive⟩ := Agent.receive_of_ackFor?_none hfor
      rw [Session.receive, hreceive]
      exact ⟨fun _ _ => rfl, fun _ => rfl, fun _ => rfl⟩
  | some k' =>
      have hidentifier : k'.identifier = k.identifier := by
        rw [Message.ackFor?_ofAck, Option.ite_none_right_eq_some] at hfor
        rw [← Option.some.inj hfor.2]
      rw [Session.receive, Agent.receive_of_ackFor? hfor, ← hidentifier]
      exact h.sameBut_acknowledge k'

theorem receive_ofAck_of_ne {k : Ack} (h : k.agent ≠ s.agent.name) :
    s.receive (Message.ofAck k).topic (Message.ofAck k).payload = s := by
  rw [Session.receive, Agent.receive_ofAck_of_ne h]
  rfl

/-! ## What the steps come to -/

section

variable {i : String} {k : Ack}

theorem agent_conclude (s : Session) (r : Except RegistrationError Ack) : (s.conclude r).agent = s.agent := by
  cases r <;> rfl

theorem await_of_stored (h : s.agent.acks.get? i = some k) : s.await i =
    (s.withAcks { s.agent.acks with entries := s.agent.acks.entries.erase i }).conclude
      (s.judge i (some k)) := by
  rw [await, Correlation.wait_of_stored h]
  rfl

theorem await_of_missing (h : s.agent.acks.get? i = none) : s.await i =
    if s.ackWait = 0 then s.conclude (s.judge i none)
    else
      { s.withAcks { s.agent.acks with
          waiters := s.agent.acks.waiters ++ [⟨i, i, s.now, s.now + s.ackWait⟩] } with
        stage := .waiting i (s.now + s.ackWait) } := by
  rw [await, Correlation.wait_of_missing h]
  by_cases hzero : s.ackWait = 0
  · rw [if_pos hzero, if_pos hzero]
    rfl
  · rw [if_neg hzero, if_neg hzero]
    rfl

theorem acknowledge_of_awaited {w : Waiter} (hw : s.agent.acks.waiters = [w]) (hkey : w.key = k.identifier) :
    s.acknowledge k =
      (s.withAcks { s.agent.acks with
        entries := s.agent.acks.entries.erase k.identifier, waiters := [] }).conclude
        (s.judge w.id (some k)) := by
  have hset : s.agent.acks.set k.identifier k = (some ⟨w.id, some k, s.now - w.since⟩,
      { s.agent.acks with entries := s.agent.acks.entries.erase k.identifier, waiters := [] }) := by
    rw [Correlation.set, hw, List.find?_cons_of_pos (by simpa using hkey),
      List.eraseP_cons_of_pos (by simpa using hkey)]
    rfl
  rw [acknowledge_eq hset]
  rfl

theorem acknowledge_of_other (h : ∀ w ∈ s.agent.acks.waiters, w.key ≠ k.identifier) :
    s.acknowledge k = s.withAcks { s.agent.acks with
      entries := s.agent.acks.entries.insert k.identifier ⟨k, s.now⟩ } := by
  have hset : s.agent.acks.set k.identifier k = (none,
      { s.agent.acks with entries := s.agent.acks.entries.insert k.identifier ⟨k, s.now⟩ }) := by
    rw [Correlation.set, List.find?_eq_none.mpr fun w hw => by simpa using h w hw]
    rfl
  rw [acknowledge_eq hset]
  rfl

theorem wake?_of_stopped (h : s.stage = .stopped) : s.wake? = none := by
  rw [wake?, h]

theorem pass_eq (s : Session) (duration : Nat) : s.pass duration =
    (s.withAcks (s.agent.acks.advance duration).2).resume (s.agent.acks.advance duration).1.head? := rfl

theorem pass_of_before {duration : Nat}
    (h : ∀ w ∈ s.agent.acks.waiters, s.now + duration < w.deadline) :
    s.pass duration = s.withAcks (s.agent.acks.advance duration).2 ∧
      (s.agent.acks.advance duration).2.waiters = s.agent.acks.waiters := by
  have hnone : ∀ w ∈ s.agent.acks.waiters, decide (w.deadline ≤ s.agent.acks.now + duration) = false :=
    fun w hw => decide_eq_false (Nat.not_le_of_lt (h w hw))
  constructor
  · rw [pass_eq, Correlation.ended_advance,
      List.filter_eq_nil_iff.mpr fun w hw => by rw [hnone w hw]; exact Bool.false_ne_true]
    rfl
  · rw [Correlation.waiters_advance, List.filter_eq_self.mpr fun w hw => by rw [hnone w hw]; rfl]

theorem pass_of_due {duration : Nat} {w : Waiter} (hw : s.agent.acks.waiters = [w])
    (hdue : w.deadline ≤ s.now + duration) :
    s.pass duration = (s.withAcks (s.agent.acks.advance duration).2).conclude (s.judge w.id none) ∧
      (s.agent.acks.advance duration).2.waiters = [] := by
  have hdue : decide (w.deadline ≤ s.agent.acks.now + duration) = true := decide_eq_true hdue
  constructor
  · rw [pass_eq, Correlation.ended_advance, hw, List.filter_singleton, hdue]
    rfl
  · rw [Correlation.waiters_advance, hw, List.filter_singleton, hdue]
    rfl

end

end Session

end EdgeFleet
