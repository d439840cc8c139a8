import EdgeFleet.Proofs.Fleet.Forms
import EdgeFleet.Proofs.Fleet.Network

/-! # The handshake

An agent takes itself for registered only with the acknowledgement of the report that it waits for, and only
after a sweep has registered it by that report.
-/

namespace EdgeFleet

/-! ## Logs -/

theorem concat_isPrefix_of_not_mem {α : Type} {past log new : List α} {x : α}
    (h : past ++ [x] <+: log ++ new) (hx : x ∉ new) : past ++ [x] <+: log := by
  rcases List.prefix_or_prefix_of_prefix h (List.prefix_append log new) with hpast | hlog
  · exact hpast
  · rcases List.prefix_concat_iff.mp hlog with hlog | ⟨later, rfl⟩
    · exact hlog ▸ List.prefix_rfl
    · rw [List.append_assoc, List.prefix_append_right_inj] at h
      exact absurd (h.subset (List.mem_append_right _ (List.mem_singleton.mpr rfl))) hx

/-- The report has been accepted, and later a sweep has registered its agent by it. -/
def Promoted (log : List Occurrence) (h : Heartbeat) : Prop :=
  ∃ past, past ++ [.promoted h.name h.identifier] <+: log ∧ .accepted h ∈ past

/-- An acknowledgement under the identifier `i` is that of a report by which the agent was registered. -/
def Justified (log : List Occurrence) (agent i : String) (k : Ack) : Prop :=
  k.identifier = i ∧ ∃ h, h.name = agent ∧ h.identifier = i ∧ Promoted log h

/-- The attempt of an agent may succeed with an acknowledgement: it answers the agent's latest report, by
which the agent was registered. -/
def Earned (log : List Occurrence) (agent : String) (report : Option Heartbeat) (ack : Ack) : Prop :=
  ∃ h, report = some h ∧ h.name = agent ∧ ack.accepted = true ∧ ack.identifier = h.identifier ∧
    Promoted log h

section

variable {log new : List Occurrence} {agent i : String} {k : Ack} {h : Heartbeat}

theorem Promoted.append (hp : Promoted log h) (new : List Occurrence) : Promoted (log ++ new) h := by
  obtain ⟨past, hpast, haccepted⟩ := hp
  exact ⟨past, hpast.trans (List.prefix_append log new), haccepted⟩

theorem promoted_of_mem (haccepted : .accepted h ∈ log) (hnew : .promoted h.name h.identifier ∈ new) :
    Promoted (log ++ new) h := by
  obtain ⟨earlier, later, rfl⟩ := List.append_of_mem hnew
  exact ⟨log ++ earlier, ⟨later, by simp⟩, List.mem_append_left _ haccepted⟩

theorem Promoted.accepted (hp : Promoted log h) : .accepted h ∈ log := by
  obtain ⟨past, hpast, haccepted⟩ := hp
  exact hpast.subset (List.mem_append_left _ haccepted)

theorem Justified.append (hk : Justified log agent i k) (new : List Occurrence) :
    Justified (log ++ new) agent i k := by
  obtain ⟨hid, h, hname, hidentifier, hp⟩ := hk
  exact ⟨hid, h, hname, hidentifier, hp.append new⟩

end

/-! ## Agents -/

namespace Client

/-- What holds of an agent: it has made its reports under its own name and under distinct identifiers, it
waits only for the acknowledgement of the latest, and it has received only acknowledgements that the
controller meant for it. -/
structure Sound (log : List Occurrence) (agent : String) (c : Client) : Prop where
  name : c.session.agent.name = agent
  names : ∀ h ∈ c.reports, h.name = agent
  distinct : (c.reports.map (·.identifier)).Nodup
  backed : c.session.Backed (Justified log agent)
  latest : ∀ i, c.session.awaited? = some i →
    c.publishing = false ∧ ∃ h, c.reports.head? = some h ∧ h.identifier = i

variable {log new : List Occurrence} {agent : String} {c c' : Client}

theorem Sound.append (hc : c.Sound log agent) (new : List Occurrence) : c.Sound (log ++ new) agent :=
  { hc with backed := hc.backed.mono fun _ _ hk => hk.append new }

theorem sound_of_isFresh {s : Session} (hs : s.IsFresh agent) {reports : List Heartbeat}
    (hnames : ∀ h ∈ reports, h.name = agent) (hdistinct : (reports.map (·.identifier)).Nodup) :
    Sound log agent ⟨s, reports, false⟩ := by
  have hnone : s.awaited? = none := by rw [Session.awaited?, hs.stage]
  refine ⟨hs.name, hnames, hdistinct, ⟨fun i k hk => ?_, ?_⟩, fun i hi => ?_⟩
  · rw [Correlation.get?, hs.entries] at hk
    cases hk
  · rw [hs.waiters, hnone]
    rfl
  · rw [hnone] at hi
    cases hi

/-- Of reports with distinct identifiers, one is known by its identifier. -/
theorem Sound.eq_of_identifier (hc : c.Sound log agent) {h h' : Heartbeat} (hh : h ∈ c.reports)
    (hh' : h' ∈ c.reports) (hid : h.identifier = h'.identifier) : h = h' :=
  List.inj_on_of_nodup_map hc.distinct hh hh' hid

theorem completions_eq_nil (h : c'.session.stage = c.session.stage) : c.completions agent c' = [] := by
  rw [Client.completions, Session.granted?, Session.granted?, h]
  cases c.session.stage <;> rfl

/-- If an acknowledgement ends the registration of an agent, it is for this agent and for its latest report. -/
theorem Sound.latest_of_completions (hc : c.Sound log agent) (k : Ack)
    (hcompleted : c.completions agent
      { c with session := c.session.receive (Message.ofAck k).topic (Message.ofAck k).payload } ≠ []) :
    k.agent = agent ∧ c.reports.head?.map (·.identifier) = some k.identifier := by
  have hname : k.agent = agent := by
    by_contra hne
    rw [← hc.name] at hne
    refine hcompleted (completions_eq_nil ?_)
    rw [Session.receive_ofAck_of_ne hne]
  have hawaited : c.session.awaited? = some k.identifier := by
    by_contra hne
    exact hcompleted (completions_eq_nil ((hc.backed.sameBut_receive k).stage hne))
  obtain ⟨-, h, hlatest, hid⟩ := hc.latest _ hawaited
  rw [hlatest, Option.map_some, hid]
  exact ⟨hname, rfl⟩

theorem Step.subset_reports {sent out : List Message} (hstep : c.Step sent out c') :
    c.reports ⊆ c'.reports := by
  cases hstep with
  | report => exact List.subset_cons_self _ _
  | _ => exact List.Subset.refl _

/-- Agents send nothing but reports. -/
theorem Step.exists_report {sent out : List Message} (hstep : c.Step sent out c') {m : Message}
    (hm : m ∈ out) : ∃ h ∈ c'.reports, m = ⟨Topic.heartbeat, h.encode⟩ := by
  cases hstep with
  | report => exact ⟨_, List.mem_cons_self, List.mem_singleton.mp hm⟩
  | _ => cases hm

/-- A step of the session that belongs to the latest report. -/
theorem Sound.progress (hc : c.Sound log agent) {s : Session} {attempt : Option String} {publishing : Bool}
    (hs : Session.Progress (Justified log agent) c.session attempt s)
    (hlatest : ∀ i, attempt = some i →
      publishing = false ∧ ∃ h, c.reports.head? = some h ∧ h.identifier = i) :
    Sound log agent ⟨s, c.reports, publishing⟩ ∧
      ∀ ack, c.session.granted? = none → s.granted? = some ack →
        ∃ h, c.reports.head? = some h ∧ ack.accepted = true ∧ Justified log agent h.identifier ack := by
  refine ⟨⟨hs.name.trans hc.name, hc.names, hc.distinct, hs.backed, ?_⟩, fun ack hnone hack => ?_⟩
  · exact fun i hi => hlatest i (hs.awaited i hi)
  · rcases hs.granted ack hack with hold | ⟨i, hi, haccepted, hk⟩
    · rw [hnone] at hold
      cases hold
    · obtain ⟨-, h, hh, rfl⟩ := hlatest i hi
      exact ⟨h, hh, haccepted, hk⟩

theorem Sound.step (hc : c.Sound log agent) {sent out : List Message}
    (hsent : ∀ m ∈ sent, ∀ k, m.ackFor? agent = some k → Justified log agent k.identifier k)
    (hstep : c.Step sent out c') :
    c'.Sound log agent ∧ ∀ ack, c.session.granted? = none → c'.session.granted? = some ack →
      ∃ h, c.reports.head? = some h ∧ ack.accepted = true ∧ Justified log agent h.identifier ack := by
  cases hstep with
  | report status state identifier timestamp hdue hidle hnew =>
      have hnone := Session.awaited?_of_due hdue
      refine ⟨⟨hc.name, ?_, List.nodup_cons.mpr ⟨hnew, hc.distinct⟩, hc.backed, ?_⟩, fun ack hnone hack => ?_⟩
      · exact List.forall_mem_cons.mpr ⟨hc.name, hc.names⟩
      · intro i hi
        rw [hnone] at hi
        cases hi
      · rw [hnone] at hack
        cases hack
  | published hlatest hpublishing refusal =>
      have hnone : c.session.awaited? = none := by
        cases hawaited : c.session.awaited? with
        | none => rfl
        | some i =>
            have hidle := (hc.latest i hawaited).1
            rw [hpublishing] at hidle
            cases hidle
      refine hc.progress (hc.backed.reported hnone _ refusal) fun i hi => ⟨rfl, _, hlatest, ?_⟩
      exact Option.some.inj hi
  | receive m hm =>
      refine hc.progress (hc.backed.receive fun k hk => ?_) hc.latest
      rw [hc.name] at hk
      exact hsent m hm k hk
  | pass duration => exact hc.progress (hc.backed.pass duration) hc.latest
  | restart hfresh =>
      rw [hc.name] at hfresh
      refine ⟨sound_of_isFresh hfresh hc.names hc.distinct, fun ack _ hack => ?_⟩
      rw [Session.granted?, hfresh.stage] at hack
      cases hack

/-- An agent completes its registration only as it has earned it. -/
theorem Sound.completions (hc : c.Sound log agent) {sent out : List Message}
    (hsent : ∀ m ∈ sent, ∀ k, m.ackFor? agent = some k → Justified log agent k.identifier k)
    (hreported : ∀ h, .accepted h ∈ log → h.name = agent → h ∈ c.reports)
    (hstep : c.Step sent out c') :
    c.completions agent c' = [] ∨ ∃ ack,
      c.completions agent c' = [.completed agent c.reports.head? ack] ∧
        Earned log agent c.reports.head? ack := by
  rw [Client.completions]
  split
  · next ack hnone hack =>
    obtain ⟨h, hh, haccepted, hid, h', hname, hid', hp⟩ := (hc.step hsent hstep).2 ack hnone hack
    have hmem : h ∈ c.reports := List.mem_of_mem_head? hh
    obtain rfl : h' = h := hc.eq_of_identifier (hreported h' hp.accepted hname) hmem hid'
    exact .inr ⟨ack, rfl, h', hh, hname, haccepted, hid, hp⟩
  · exact .inl rfl

end Client

/-! ## The registry -/

namespace Fleet

variable {log : List Occurrence}

/-- The entries of the registry have been made by reports that were accepted. -/
def EntriesAccepted (log : List Occurrence) (r : Registry) : Prop :=
  ∀ agent e, r.get? agent = some e →
    ∃ h, .accepted h ∈ log ∧ h.name = agent ∧ h.identifier = e.record.identifier

theorem EntriesAccepted.append {r : Registry} (hr : EntriesAccepted log r) (new : List Occurrence) :
    EntriesAccepted (log ++ new) r := by
  intro agent e he
  obtain ⟨h, haccepted, hname, hid⟩ := hr agent e he
  exact ⟨h, List.mem_append_left _ haccepted, hname, hid⟩

theorem EntriesAccepted.after {f : Fleet} (hf : EntriesAccepted log f.registry) {e : Event}
    {sent : List Message} (hdelivered : e.IsDelivered sent) :
    EntriesAccepted (log ++ f.occurrences e) (f.after e).registry := by
  intro agent entry hentry
  have hold := hf.append (f.occurrences e) agent
  rcases f.registry_after hdelivered with ⟨-, hr⟩ | ⟨-, h, -, -, hoccurrences, now, hr⟩ | ⟨limit, now, -, hr⟩
  · rw [hr] at hentry
    exact hold entry hentry
  · rw [hr, Registry.get?_receive] at hentry
    split at hentry
    · next hname =>
      cases hentry
      rw [hoccurrences]
      exact ⟨h, List.mem_append_right _ (List.mem_singleton.mpr rfl), hname.symm, rfl⟩
    · exact hold entry hentry
  · rw [hr, Registry.get?_sweepAfter, Option.map_eq_some_iff] at hentry
    obtain ⟨before, hbefore, rfl⟩ := hentry
    exact hold before hbefore

end Fleet

/-! ## The network -/

namespace Network

/-- The report was made by the agent whose name it bears. -/
def Reported (n : Network) (h : Heartbeat) : Prop :=
  ∃ c, n.clients.get? h.name = some c ∧ h ∈ c.reports

/-- The messages on the network: what agents have reported, acknowledgements of reports by which agents
were registered, and commands. -/
inductive Genuine (log : List Occurrence) (n : Network) : Message → Prop where
  | report {h : Heartbeat} (hreported : n.Reported h) : Genuine log n ⟨Topic.heartbeat, h.encode⟩
  | ack {k : Ack} {h : Heartbeat} (hname : h.name = k.agent) (hid : h.identifier = k.identifier)
      (hpromoted : Promoted log h) : Genuine log n (.ofAck k)
  | command (agent : String) (c : WorkloadCommand) : Genuine log n (.ofCommand agent c)

/-- What holds of every network that is reached: nothing on it is forged, the registry has only accepted
reports, and no registration has been completed without having been earned. -/
structure Sound (log : List Occurrence) (n : Network) : Prop where
  filed : n.fleet.registry.Filed
  entries : Fleet.EntriesAccepted log n.fleet.registry
  reported : ∀ h, .accepted h ∈ log → n.Reported h
  genuine : ∀ m ∈ n.sent, n.Genuine log m
  clients : ∀ agent c, n.clients.get? agent = some c → c.Sound log agent
  earned : ∀ past agent report ack, past ++ [.completed agent report ack] <+: log →
    Earned past agent report ack

variable {log new : List Occurrence} {n n' : Network}

theorem Genuine.justified {m : Message} (hm : n.Genuine log m) {agent : String} {k : Ack}
    (hk : m.ackFor? agent = some k) : Justified log agent k.identifier k := by
  cases hm with
  | report hreported =>
      rw [Message.ackFor?_heartbeat] at hk
      cases hk
  | ack hname hid hpromoted =>
      rw [Message.ackFor?_ofAck, Option.ite_none_right_eq_some] at hk
      obtain ⟨⟨hagent, -⟩, hk⟩ := hk
      cases hk
      exact ⟨rfl, _, hname.trans hagent, hid, hpromoted⟩
  | command =>
      rw [Message.ackFor?_ofCommand] at hk
      cases hk

/-- What arrives on the topic of reports has been reported. -/
theorem Genuine.reported {payload : Bytes} {h : Heartbeat} (hm : n.Genuine log ⟨Topic.heartbeat, payload⟩)
    (hh : Heartbeat.decode? payload = some h) : n.Reported h := by
  generalize hmessage : (⟨Topic.heartbeat, payload⟩ : Message) = m at hm
  cases hm with
  | @report h' hreported =>
      cases hmessage
      have hdecode : Heartbeat.decode? h'.encode = some h' := Heartbeat.faithful.bind_parse? h'
      rw [hdecode] at hh
      cases hh
      exact hreported
  | ack => exact absurd (congrArg Message.topic hmessage).symm (Topic.control_ne_heartbeat _)
  | command => exact absurd (congrArg Message.topic hmessage).symm (Topic.data_ne_heartbeat _)

/-! ### Steps -/

theorem Reported.insert {h : Heartbeat} (hh : n.Reported h) {agent : String} {c c' : Client}
    (hget : n.clients.get? agent = some c) (hsub : c.reports ⊆ c'.reports) (sent : List Message) :
    Reported { n with clients := n.clients.insert agent c', sent } h := by
  obtain ⟨d, hd, hmem⟩ := hh
  rw [Reported, KeyMap.get?_insert]
  by_cases hname : h.name = agent
  · rw [hname, hget] at hd
    cases hd
    exact ⟨c', if_pos hname, hsub hmem⟩
  · exact ⟨d, by rw [if_neg hname, hd], hmem⟩

theorem Genuine.mono {m : Message} (hm : n.Genuine log m) (hreported : ∀ h, n.Reported h → n'.Reported h)
    (new : List Occurrence) : n'.Genuine (log ++ new) m := by
  cases hm with
  | report hh => exact .report (hreported _ hh)
  | ack hname hid hpromoted => exact .ack hname hid (hpromoted.append new)
  | command agent c => exact .command agent c

theorem Sound.mem_reports (hn : n.Sound log) {agent : String} {c : Client}
    (hget : n.clients.get? agent = some c) {h : Heartbeat} (haccepted : .accepted h ∈ log)
    (hname : h.name = agent) : h ∈ c.reports := by
  obtain ⟨d, hd, hmem⟩ := hn.reported h haccepted
  rw [hname, hget] at hd
  cases hd
  exact hmem

theorem Sound.client (hn : n.Sound log) {agent : String} {c c' : Client} {out : List Message}
    (hget : n.clients.get? agent = some c) (hstep : c.Step n.sent out c') :
    Sound (log ++ c.completions agent c')
      { n with clients := n.clients.insert agent c', sent := out ++ n.sent } := by
  have hc := hn.clients agent c hget
  have hsent : ∀ m ∈ n.sent, ∀ k, m.ackFor? agent = some k → Justified log agent k.identifier k :=
    fun m hm k hk => (hn.genuine m hm).justified hk
  have hc' := (hc.step hsent hstep).1
  have hkept : ∀ h, n.Reported h →
      Reported { n with clients := n.clients.insert agent c', sent := out ++ n.sent } h :=
    fun h hh => hh.insert hget hstep.subset_reports _
  have hcompletions := hc.completions hsent (fun _ => hn.mem_reports hget) hstep
  refine ⟨hn.filed, hn.entries.append _, fun h haccepted => ?_, fun m hm => ?_, fun a d hd => ?_,
    fun past a report ack hpast => ?_⟩
  · rcases List.mem_append.mp haccepted with haccepted | hnew
    · exact hkept h (hn.reported h haccepted)
    · rcases hcompletions with hnil | ⟨ack, hcompleted, -⟩
      · rw [hnil] at hnew
        cases hnew
      · rw [hcompleted, List.mem_singleton] at hnew
        cases hnew
  · rcases List.mem_append.mp hm with hm | hm
    · obtain ⟨h, hh, rfl⟩ := hstep.exists_report hm
      refine .report ⟨c', ?_, hh⟩
      rw [hc'.names h hh, KeyMap.get?_insert_self]
    · exact (hn.genuine m hm).mono hkept _
  · rw [KeyMap.get?_insert] at hd
    split at hd
    · next ha =>
      cases hd
      subst ha
      exact hc'.append _
    · exact (hn.clients a d hd).append _
  · rcases hcompletions with hnil | ⟨ack', hcompleted, hearned⟩
    · rw [hnil, List.append_nil] at hpast
      exact hn.earned past a report ack hpast
    · rw [hcompleted] at hpast
      rcases List.prefix_concat_iff.mp hpast with heq | hpast
      · obtain ⟨rfl, hlast⟩ := List.append_inj' heq rfl
        cases hlast
        exact hearned
      · exact hn.earned past a report ack hpast

theorem Sound.fleet (hn : n.Sound log) {e : Fleet.Event} (hdelivered : e.IsDelivered n.sent) :
    Sound (log ++ n.fleet.occurrences e)
      { n with fleet := n.fleet.after e, sent := n.fleet.outbox e ++ n.sent } := by
  have hkept : ∀ h, n.Reported h →
      Reported { n with fleet := n.fleet.after e, sent := n.fleet.outbox e ++ n.sent } h := fun _ hh => hh
  refine ⟨Fleet.filed_after hn.filed hdelivered, hn.entries.after hdelivered, fun h haccepted => ?_,
    fun m hm => ?_, fun a c hc => (hn.clients a c hc).append _, fun past a report ack hpast => ?_⟩
  · rcases List.mem_append.mp haccepted with haccepted | hnew
    · exact hn.reported h haccepted
    · rcases n.fleet.registry_after hdelivered with ⟨hnil, -⟩ | ⟨payload, r, hsent, hr, hone, -⟩ |
          ⟨limit, now, hpromotions, -⟩
      · rw [hnil] at hnew
        cases hnew
      · rw [hone, List.mem_singleton] at hnew
        cases hnew
        exact (hn.genuine _ hsent).reported hr
      · rw [hpromotions] at hnew
        obtain ⟨_, _, _, _, _, ho⟩ := Fleet.mem_promotions.mp hnew
        cases ho
  · rcases List.mem_append.mp hm with hm | hm
    · rcases Fleet.mem_outbox hm with ⟨agent, c, rfl⟩ | ⟨limit, now, rfl, k, hk, rfl⟩
      · exact .command agent c
      · -- The sweep that sends an acknowledgement has registered the agent by its entry.
        obtain ⟨entry, hentry, hstate, hid, -⟩ := (hn.filed.mem_acks limit now k).mp hk
        obtain ⟨h, haccepted, hname, hidentifier⟩ := hn.entries k.agent entry hentry
        refine .ack hname (hidentifier.trans hid.symm) (promoted_of_mem haccepted ?_)
        refine Fleet.mem_promotions.mpr ⟨k.agent, entry, hentry, hstate, ?_, by rw [hname, hidentifier]⟩
        refine ((hn.filed.sweepSpec limit now).registered k.agent).mpr (.inl ?_)
        rw [Registry.stateOf?, hentry, Option.map_some, hstate]
    · exact (hn.genuine m hm).mono hkept _
  · exact hn.earned past a report ack
      (concat_isPrefix_of_not_mem hpast (n.fleet.not_completed_mem_occurrences e a report ack))

theorem Sound.step (hn : n.Sound log) (hstep : n.Step new n') : n'.Sound (log ++ new) := by
  cases hstep with
  | client hget hstep => exact hn.client hget hstep
  | fleet e hdelivered => exact hn.fleet hdelivered

theorem Reached.sound (h : Reached log n) : n.Sound log := by
  induction h with
  | start d hfresh =>
      refine ⟨Registry.filed_empty, fun a e he => ?_, fun h haccepted => ?_, fun m hm => ?_, fun a c hc => ?_,
        fun past a report ack hpast => ?_⟩
      · cases he
      · cases haccepted
      · cases hm
      · obtain ⟨hs, hreports, hpublishing⟩ := hfresh a c hc
        obtain ⟨s, reports, publishing⟩ := c
        obtain rfl : reports = [] := hreports
        obtain rfl : publishing = false := hpublishing
        exact Client.sound_of_isFresh hs (fun _ hh => by cases hh) List.nodup_nil
      · simp at hpast
  | step _ hstep ih => exact ih.step hstep

/-- Whatever the network does, an agent that takes itself for registered has received a positive
acknowledgement of the report that it waited for, and before that a sweep had registered it by this report,
which had been accepted. An acknowledgement does nothing to other agents, and to the agent that it is for
nothing but what concerns the report that it answers; it ends no registration but the one with this report. -/
theorem handshake_safe (h : Reached log n) :
    (∀ past agent report ack, past ++ [.completed agent report ack] <+: log →
      ∃ h, report = some h ∧ h.name = agent ∧ ack.accepted = true ∧ ack.identifier = h.identifier ∧
        ∃ before, before ++ [.promoted agent h.identifier] <+: past ∧ .accepted h ∈ before) ∧
      ∀ agent c, n.clients.get? agent = some c → ∀ k : Ack,
        let s := c.session.receive (Message.ofAck k).topic (Message.ofAck k).payload
        (k.agent ≠ agent → s = c.session) ∧ c.session.SameBut k.identifier s ∧
          (c.completions agent { c with session := s } ≠ [] →
            k.agent = agent ∧ c.reports.head?.map (·.identifier) = some k.identifier) := by
  have hn := h.sound
  refine ⟨fun past agent report ack hpast => ?_, fun agent c hc k => ?_⟩
  · obtain ⟨r, hreport, hname, haccepted, hid, hpromoted⟩ := hn.earned past agent report ack hpast
    rw [Promoted, hname] at hpromoted
    exact ⟨r, hreport, hname, haccepted, hid, hpromoted⟩
  · have hsound := hn.clients agent c hc
    refine ⟨fun hne => Session.receive_ofAck_of_ne ?_, hsound.backed.sameBut_receive k,
      hsound.latest_of_completions k⟩
    rwa [hsound.name]

/-- The acknowledgement of the first report comes only when the agent has given it up and waits for that of
the second one, which ends its registration. -/
theorem handshake_safe_retry :
    let status : NodeStatus := ⟨[], none, none, none⟩
    let c : Client := ⟨.start (.start "edge-1" 1 "x86_64" status) 100 50 1000, [], false⟩
    let first := c.report status .registering "x-1" 1
    let second := c.report status .registering "x-2" 2
    let past : List Occurrence :=
      [.accepted first, .promoted "edge-1" "x-1", .accepted second, .promoted "edge-1" "x-2"]
    (∃ n, Reached (past ++ [.completed "edge-1" (some second) ⟨"x-2", true, ""⟩]) n) ∧
      ∃ before, before ++ [.promoted "edge-1" second.identifier] <+: past ∧ .accepted second ∈ before := by
  intro status c first second past
  have hstart : Reached [] ⟨.start .empty, (∅ : KeyMap Client).insert "edge-1" c, []⟩ := by
    refine .start _ fun agent c' hc => ?_
    rw [KeyMap.get?_insert] at hc
    split at hc
    · next hagent =>
      cases hc
      exact ⟨⟨hagent.symm, rfl, rfl, rfl⟩, rfl, rfl⟩
    · cases hc
  have hreport := hstart.step (.client (KeyMap.get?_insert_self ..)
    (.report status .registering "x-1" 1 rfl rfl (by decide)))
  have haccepted := hreport.step (.fleet (.ingest first.encode .epoch) List.mem_cons_self)
  have hwaiting := haccepted.step (.client (KeyMap.get?_insert_self ..) (.published rfl rfl none))
  have hpromoted := hwaiting.step (.fleet (.sweep 0 .epoch) trivial)
  have htimeout := hpromoted.step (.client (KeyMap.get?_insert_self ..) (.pass 100))
  have hrested := htimeout.step (.client (KeyMap.get?_insert_self ..) (.pass 50))
  have hreport' := hrested.step (.client (KeyMap.get?_insert_self ..)
    (.report status .registering "x-2" 2 (by decide +kernel) rfl (by decide)))
  have hwaiting' := hreport'.step (.client (KeyMap.get?_insert_self ..) (.published rfl rfl none))
  have hlate := hwaiting'.step (.client (KeyMap.get?_insert_self ..)
    (.receive (.ofAck ⟨"x-1", true, "edge-1"⟩) (by decide +kernel)))
  have haccepted' := hlate.step (.fleet (.ingest second.encode .epoch)
    (by rw [Fleet.Event.IsDelivered]; decide +kernel))
  have hpromoted' := haccepted'.step (.fleet (.sweep 0 .epoch) trivial)
  have hcompleted := hpromoted'.step (.client (KeyMap.get?_insert_self ..)
    (.receive (.ofAck ⟨"x-2", true, "edge-1"⟩) (by decide +kernel)))
  obtain ⟨log, n, hreached, rfl⟩ : ∃ log n, Reached log n ∧
      log = past ++ [.completed "edge-1" (some second) ⟨"x-2", true, ""⟩] :=
    ⟨_, _, hcompleted, by decide +kernel⟩
  obtain ⟨h, hlatest, -, -, -, hbefore⟩ := (handshake_safe hreached).1 past _ _ _ List.prefix_rfl
  cases hlatest
  exact ⟨⟨n, hreached⟩, hbefore⟩

end Network

end EdgeFleet
