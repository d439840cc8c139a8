import EdgeFleet.Proofs.Agent.Course
import Mathlib.Data.List.Nodup

/-! # The registration of an agent

Whatever comes from outside, a session attempts to register at the times it should, registers once and by
an acknowledgement of its latest attempt, and then reports at regular times until it is stopped.
-/

namespace EdgeFleet.Session

section

variable {s₀ s : Session} {log : Log} {p : Nat} {h : Heartbeat} {refusal : Option String}

theorem Orderly.mono {past : Log} (horderly : Orderly s₀ log) (hpast : past <+: log) : Orderly s₀ past :=
  ⟨fun before t i hbefore => horderly.permitted before t i (hbefore.trans hpast),
    fun before t i hbefore => horderly.silent before t i (hbefore.trans hpast)⟩

theorem Orderly.of_concat {t : Nat} {i : Incident} (horderly : Orderly s₀ (log ++ [(t, i)])) :
    Orderly s₀ log ∧ Permitted s₀ log t i :=
  ⟨horderly.mono (List.prefix_append _ _), horderly.permitted log t i List.prefix_rfl⟩

theorem Log.Latest.mem {t : Nat} {i : Incident} (hlatest : log.Latest t i) : (t, i) ∈ log :=
  List.mem_of_mem_filter (List.mem_of_getLast? hlatest)

/-- Once the agent has registered, its reports say so. -/
theorem Orderly.registered_of_latest (horderly : Orderly s₀ log) {g : Nat} {k : Ack}
    (hgranted : (g, .granted k) ∈ log) (hlatest : log.Latest p (.published h refusal)) :
    h.state = .registered := by
  induction log using List.reverseRecOn with
  | nil => cases hgranted
  | append_singleton log x ih =>
      obtain ⟨t, i⟩ := x
      obtain ⟨hbefore, hpermitted⟩ := horderly.of_concat
      cases hpermitted with
      | received m =>
          refine ih hbefore ?_ (Log.latest_received.mp hlatest)
          exact (List.mem_append.mp hgranted).resolve_right fun hmem => by cases List.mem_singleton.mp hmem
      | attempt _ _ _ _ hungranted =>
          rcases List.mem_append.mp hgranted with hmem | hmem
          · exact absurd hmem (hungranted g k)
          · cases List.mem_singleton.mp hmem
      | beat _ _ hstate =>
          cases ((Log.latest_concat rfl).mp hlatest).2
          exact hstate
      | _ => cases ((Log.latest_concat rfl).mp hlatest).2

theorem Orderly.not_granted_of_granted (horderly : Orderly s₀ log) {t : Nat} {k : Ack}
    (hpermitted : Permitted s₀ log t (.granted k)) (g : Nat) (j : Ack) : (g, .granted j) ∉ log := by
  intro hmem
  cases hpermitted with
  | granted hlatest hstate =>
      rw [horderly.registered_of_latest hmem hlatest] at hstate
      cases hstate

/-- The agent registers once. -/
theorem Orderly.granted_unique (horderly : Orderly s₀ log) {g g' : Nat} {k k' : Ack}
    (hgranted : (g, .granted k) ∈ log) (hgranted' : (g', .granted k') ∈ log) : g' = g := by
  induction log using List.reverseRecOn with
  | nil => cases hgranted
  | append_singleton log x ih =>
      obtain ⟨t, i⟩ := x
      obtain ⟨hbefore, hpermitted⟩ := horderly.of_concat
      rcases List.mem_append.mp hgranted with hmem | hmem <;>
        rcases List.mem_append.mp hgranted' with hmem' | hmem'
      · exact ih hbefore hmem hmem'
      · cases List.mem_singleton.mp hmem'
        exact absurd hmem (hbefore.not_granted_of_granted hpermitted g k)
      · cases List.mem_singleton.mp hmem
        exact absurd hmem' (hbefore.not_granted_of_granted hpermitted g' k')
      · cases List.mem_singleton.mp hmem
        cases List.mem_singleton.mp hmem'
        rfl

/-- The attempts come first, and the reports of the registered agent follow at its intervals. -/
structure Log.Phased (interval : Nat) (log : Log) : Prop where
  reports : log.reports = log.attempts ++ log.beats
  ungranted : (∀ g k, (g, .granted k) ∉ log) → log.beats = []
  times : ∀ g k, (g, .granted k) ∈ log →
    log.beats.map (·.1) = (List.range log.beats.length).map fun n => g + (n + 1) * interval

theorem Log.attempts_published (log : Log) (t : Nat) (h : Heartbeat) (refusal : Option String) :
    Log.attempts (log ++ [(t, .published h refusal)]) =
      if h.state = .registering then log.attempts ++ [(t, h)] else log.attempts := by
  rw [attempts, reports_concat, Incident.report?, List.filter_append, attempts]
  by_cases hstate : h.state = .registering <;> simp [hstate]

theorem Log.Phased.concat_of_none {interval : Nat} (hlog : log.Phased interval) {t : Nat} {i : Incident}
    (hreport : i.report? = none) (hfirst : ∀ k, i = .granted k → log.beats = []) :
    Log.Phased interval (log ++ [(t, i)]) := by
  have hreports := Log.reports_concat_of_none hreport log t
  have hbeats := Log.beats_concat_of_none hreport log t
  have hattempts : Log.attempts (log ++ [(t, i)]) = log.attempts := by
    rw [Log.attempts, hreports, Log.attempts]
  refine ⟨by rw [hreports, hbeats, hattempts, hlog.reports], fun hnone => ?_, fun g k hgranted => ?_⟩
  · rw [hbeats]
    exact hlog.ungranted fun g k hmem => hnone g k (List.mem_append_left _ hmem)
  · rw [hbeats]
    rcases List.mem_append.mp hgranted with hmem | hmem
    · exact hlog.times g k hmem
    · cases List.mem_singleton.mp hmem
      rw [hfirst k rfl]
      rfl

theorem Orderly.phased (horderly : Orderly s₀ log) : log.Phased s₀.interval := by
  induction log using List.reverseRecOn with
  | nil => exact ⟨rfl, fun _ => rfl, fun _ _ hmem => absurd hmem List.not_mem_nil⟩
  | append_singleton log x ih =>
      obtain ⟨t, i⟩ := x
      obtain ⟨hbefore, hpermitted⟩ := horderly.of_concat
      have hlog := ih hbefore
      cases i with
      | published h refusal =>
          have hreports := Log.reports_concat log t (.published h refusal)
          have hattempts := Log.attempts_published log t h refusal
          have hbeats := Log.beats_published log t h refusal
          have hmem : ∀ {g k}, (g, .granted k) ∈ log ++ [(t, .published h refusal)] → (g, .granted k) ∈ log :=
            fun hmem => (List.mem_append.mp hmem).resolve_right fun hnew => by
              cases List.mem_singleton.mp hnew
          cases hpermitted with
          | attempt _ _ hstate _ hungranted =>
              have hnone := hlog.ungranted hungranted
              rw [if_pos hstate] at hattempts
              rw [hstate, if_neg (by simp), hnone] at hbeats
              refine ⟨?_, fun _ => hbeats, fun g k hgranted => absurd (hmem hgranted) (hungranted g k)⟩
              rw [hreports, hattempts, hbeats, hlog.reports, hnone, List.append_nil, List.append_nil]
              rfl
          | @beat _ _ g k _ _ hstate hgranted hwhen =>
              rw [hstate, if_neg (by simp)] at hattempts
              rw [if_pos hstate] at hbeats
              refine ⟨?_, fun hnone => absurd (List.mem_append_left _ hgranted) (hnone g k),
                fun g' k' hgranted' => ?_⟩
              · rw [hreports, hattempts, hbeats, hlog.reports, List.append_assoc]
                rfl
              · rw [hbefore.granted_unique hgranted (hmem hgranted'), hbeats, List.map_append,
                  hlog.times g k hgranted, List.length_append, List.length_singleton, List.range_succ,
                  List.map_append, hwhen]
                rfl
      | granted k =>
          exact hlog.concat_of_none rfl fun _ _ =>
            hlog.ungranted (hbefore.not_granted_of_granted hpermitted)
      | received m => exact hlog.concat_of_none rfl nofun
      | failed e => exact hlog.concat_of_none rfl nofun
      | stopped => exact hlog.concat_of_none rfl nofun

theorem Log.identifiers_concat_of_none {i : Incident} (hi : i.report? = none) (log : Log) (t : Nat) :
    Log.identifiers (log ++ [(t, i)]) = log.identifiers := by
  rw [identifiers, reports_concat_of_none hi, identifiers]

theorem Log.identifiers_published (log : Log) (t : Nat) (h : Heartbeat) (refusal : Option String) :
    Log.identifiers (log ++ [(t, .published h refusal)]) = log.identifiers ++ [h.identifier] := by
  rw [identifiers, reports_concat, List.map_append]
  rfl

/-- The attempts have different identifiers. -/
theorem Orderly.nodup_identifiers (horderly : Orderly s₀ log) (hungranted : ∀ g k, (g, .granted k) ∉ log) :
    log.identifiers.Nodup := by
  induction log using List.reverseRecOn with
  | nil => exact List.nodup_nil
  | append_singleton log x ih =>
      obtain ⟨t, i⟩ := x
      obtain ⟨hbefore, hpermitted⟩ := horderly.of_concat
      have hearlier : ∀ g k, (g, .granted k) ∉ log := fun g k hmem =>
        hungranted g k (List.mem_append_left _ hmem)
      have hlog := ih hbefore hearlier
      cases hpermitted with
      | attempt _ _ _ hnew =>
          rw [Log.identifiers_published, ← List.concat_eq_append]
          exact hlog.concat hnew
      | beat _ _ _ hgranted => exact absurd hgranted (hearlier _ _)
      | _ =>
          rw [Log.identifiers_concat_of_none rfl]
          exact hlog

theorem Log.Latest.identifier (hlatest : log.Latest p (.published h refusal)) :
    log.identifiers.getLast? = some h.identifier := by
  induction log using List.reverseRecOn with
  | nil => cases hlatest
  | append_singleton log x ih =>
      obtain ⟨t, i⟩ := x
      cases i with
      | received m =>
          rw [Log.identifiers_concat_of_none rfl]
          exact ih (Log.latest_received.mp hlatest)
      | published h' refusal' =>
          cases ((Log.latest_concat rfl).mp hlatest).2
          rw [Log.identifiers_published, List.getLast?_concat]
      | _ => cases ((Log.latest_concat rfl).mp hlatest).2

theorem Orderly.of_mem_reports (horderly : Orderly s₀ log) {x : Nat × Heartbeat} (hx : x ∈ log.reports) :
    x.2.name = s₀.agent.name ∧ x.2.seqnum = s₀.agent.seqnum := by
  obtain ⟨⟨t, i⟩, hmem, hreport⟩ := List.mem_filterMap.mp hx
  obtain ⟨past, later, rfl⟩ := List.append_of_mem hmem
  have hpast : past ++ [(t, i)] <+: past ++ (t, i) :: later :=
    ⟨later, List.append_assoc past [(t, i)] later⟩
  have hpermitted := horderly.permitted past t i hpast
  cases i with
  | published h refusal =>
      cases hreport
      cases hpermitted with
      | attempt hname hseqnum => exact ⟨hname, hseqnum⟩
      | beat hname hseqnum => exact ⟨hname, hseqnum⟩
  | _ => cases hreport

/-- What is certain of a session that began as `s₀`, whatever came from outside. -/
structure Lawful (s₀ : Session) (log : Log) (s : Session) : Prop where
  orderly : Orderly s₀ log
  heard : Heard s₀ log
  phased : log.Phased s₀.interval
  same : ∀ x ∈ log.reports, x.2.name = s₀.agent.name ∧ x.2.seqnum = s₀.agent.seqnum
  /-- The agent registers by the identifier of its latest attempt, and no other attempt had it. -/
  latest : ∀ (past : Log) t k, past ++ [(t, .granted k)] <+: log →
    past.identifiers.Nodup ∧ past.identifiers.getLast? = some k.identifier
  granted : ∀ k, s.granted? = some k → ∃ g, (g, .granted k) ∈ log
  stopped : s.stage = .stopped ↔ ∃ t, (t, .stopped) ∈ log
  /-- The session is never late, and it always acts again until it is stopped. -/
  punctual : ∀ t, s.wake? = some t → s.now < t ∨ s.now = t ∧ s.due?.isSome

theorem Sound.punctual (hs : Sound s₀ log s) {t : Nat} (hwake : s.wake? = some t) :
    s.now < t ∨ s.now = t ∧ s.due?.isSome := by
  have hstands := hs.stands
  generalize s.agent.acks.waiters = waiters at hstands
  rw [wake?] at hwake
  rw [due?]
  generalize hstage : s.stage = stage at hstands hwake
  cases hstands with
  | starting =>
      cases hwake
      exact .inr ⟨rfl, rfl⟩
  | waiting _ _ hbefore =>
      cases hwake
      exact .inl hbefore
  | resting _ _ hbefore =>
      cases hwake
      exact (Nat.lt_or_eq_of_le hbefore).imp_right fun hnow => ⟨hnow, by simp [hnow]⟩
  | registered _ _ hbefore =>
      cases hwake
      exact (Nat.lt_or_eq_of_le hbefore).imp_right fun hnow => ⟨hnow, by simp [hnow]⟩
  | stopped => cases hwake

/-- Whatever messages come and whenever, whichever reports are refused and whenever it is stopped: the
session attempts to register, one backoff after each failure, until an acknowledgement of its latest
attempt accepts it; then it reports at its intervals until it is stopped. -/
theorem course_lawful (h : Course s₀ log s) : Lawful s₀ log s := by
  have hs := h.sound
  refine ⟨hs.orderly, hs.heard, hs.orderly.phased, fun x hx => hs.orderly.of_mem_reports hx,
    fun past t k hpast => ?_, fun k hk => ?_, ⟨fun hstage => ?_, fun ⟨t, hmem⟩ => ?_⟩,
    fun t hwake => hs.punctual hwake⟩
  · have hbefore : Orderly s₀ past := hs.orderly.mono ((List.prefix_append past _).trans hpast)
    have hpermitted := hs.orderly.permitted past t _ hpast
    refine ⟨hbefore.nodup_identifiers (hbefore.not_granted_of_granted hpermitted), ?_⟩
    cases hpermitted with
    | granted hlatest _ _ _ hreceived =>
        rw [hreceived.1]
        exact hlatest.identifier
  · have hstands := hs.stands
    generalize s.agent.acks.waiters = waiters at hstands
    rw [granted?] at hk
    generalize s.stage = stage at hstands hk
    cases hstands with
    | @registered g _ hgranted =>
        cases hk
        exact ⟨g, hgranted⟩
    | _ => cases hk
  · have hstands := hs.stands
    generalize s.agent.acks.waiters = waiters at hstands
    rw [hstage] at hstands
    cases hstands with
    | @stopped t hlatest => exact ⟨t, hlatest.mem⟩
  · by_contra hstage
    exact hs.running hstage t hmem

end

/-- The first attempt is refused by the broker. While the second one waits, the acknowledgement of the
first comes, which helps it nothing. The third one succeeds. -/
theorem course_lawful_third_attempt :
    let status : NodeStatus := ⟨[], none, none, none⟩
    let s₀ : Session := .start (.start "edge-1" 7 "x86_64" status) 500 200 1000
    ∃ log s, Course s₀ log s ∧ log.attempts.map (·.1) = [0, 200, 900] ∧
      (1000, .granted ⟨"c", true, ""⟩) ∈ log ∧ log.beats.map (·.1) = [2000, 3000] ∧ s.stage = .stopped := by
  intro status s₀
  have hstart : Course s₀ [] s₀ := .start rfl rfl rfl
  have hrefused := hstart.report status .registering "a" 0 (some "down") rfl (by decide)
  have hsecond := (hrefused.pass 200 (.inr (by decide +kernel))).report status .registering "b" 1 none
    (by decide +kernel) (by decide +kernel)
  have hlate := (hsecond.pass 100 (.inr (by decide +kernel))).receive (.ofAck ⟨"a", true, "edge-1"⟩)
  have hthird := ((hlate.pass 400 (.inr (by decide +kernel))).pass 200 (.inr (by decide +kernel))).report status
    .registering "c" 2 none (by decide +kernel) (by decide +kernel)
  have hgranted := (hthird.pass 100 (.inr (by decide +kernel))).receive (.ofAck ⟨"c", true, "edge-1"⟩)
  have hfirst := (hgranted.pass 1000 (.inr (by decide +kernel))).report status .registered "d" 3 none
    (by decide +kernel) (by decide +kernel)
  have hnext := (hfirst.pass 1000 (.inr (by decide +kernel))).report status .registered "e" 4 (some "down")
    (by decide +kernel) (by decide +kernel)
  have hstopped := hnext.stop fun hstage => absurd (wake?_of_stopped hstage) (by decide +kernel)
  have hlawful := course_lawful hstopped
  refine ⟨_, _, hstopped, by decide +kernel, ?_, ?_, hlawful.stopped.mpr ⟨3000, by decide +kernel⟩⟩
  · decide +kernel
  · rw [hlawful.phased.times 1000 ⟨"c", true, ""⟩ (by decide +kernel)]
    decide +kernel

end EdgeFleet.Session
