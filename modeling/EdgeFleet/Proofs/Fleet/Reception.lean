import EdgeFleet.Controller
import EdgeFleet.Proofs.Fleet.Offers
import EdgeFleet.Proofs.Fleet.Runs

/-! # Messages that are turned away

A message that is no report, or a report that the filter rejects, is counted and leaves no other trace. A
report that is accepted changes what is known of its agent alone, and all the commands that follow from it are
handed to the dispatcher. Every message is counted once.
-/

namespace EdgeFleet

/-! ## Counts -/

/-- What becomes of a message. -/
inductive Verdict where
  | accepted
  | rejected
  /-- It is no report. -/
  | malformed
  deriving DecidableEq

namespace IngestStats

/-- The counts with one more message. -/
def count (s : IngestStats) : Verdict → IngestStats
  | .accepted => { s with received := s.received + 1, accepted := s.accepted + 1 }
  | .rejected => { s with received := s.received + 1, rejected := s.rejected + 1 }
  | .malformed => { s with received := s.received + 1, malformed := s.malformed + 1 }

/-- The counts with some more messages. -/
def countAll (s : IngestStats) (vs : List Verdict) : IngestStats := vs.foldl count s

/-- Every message that was received is counted once more, by its verdict. -/
def Balanced (s : IngestStats) : Prop := s.received = s.accepted + s.rejected + s.malformed

theorem Balanced.count {s : IngestStats} (h : s.Balanced) (v : Verdict) : (s.count v).Balanced := by
  unfold Balanced at h ⊢
  cases v <;> simp only [IngestStats.count] <;> omega

theorem Balanced.countAll {s : IngestStats} (h : s.Balanced) (vs : List Verdict) : (s.countAll vs).Balanced := by
  induction vs generalizing s with
  | nil => exact h
  | cons v vs ih => exact ih (h.count v)

theorem countAll_eq (s : IngestStats) (vs : List Verdict) :
    s.countAll vs = ⟨s.received + vs.length, s.accepted + vs.count .accepted,
      s.rejected + vs.count .rejected, s.malformed + vs.count .malformed⟩ := by
  induction vs generalizing s with
  | nil => rfl
  | cons v vs ih =>
      rw [countAll, List.foldl_cons, ← countAll, ih]
      cases v <;> simp [count, Nat.add_comm, Nat.add_left_comm]

end IngestStats

namespace Desired

theorem definitions_enroll (d : Desired) (agent : String) (labels : KeyMap String) :
    (d.enroll agent labels).2.definitions = d.definitions := by
  rw [enroll]
  cases d.agents.get? agent with
  | none => rfl
  | some a =>
      dsimp only
      split <;> rfl

theorem get?_enroll_of_ne (d : Desired) {agent a : String} (ha : a ≠ agent) (labels : KeyMap String) :
    (d.enroll agent labels).2.agents.get? a = d.agents.get? a := by
  rw [enroll]
  cases d.agents.get? agent with
  | none => exact KeyMap.get?_insert_of_ne _ _ ha
  | some known =>
      dsimp only
      split
      · rfl
      · exact KeyMap.get?_insert_of_ne _ _ ha

end Desired

namespace Fleet

/-! ## One message -/

def verdictOf (f : Fleet) (h : Heartbeat) : Verdict :=
  if (f.filter.decide h.name (.ofHeartbeat h)).1 = .accepted then .accepted else .rejected

/-- What becomes of the message that a call brings, if it brings one. -/
def verdict? (f : Fleet) : Event → Option Verdict
  | .consume h _ => some (f.verdictOf h)
  | .ingest payload _ => some (((Heartbeat.decode? payload).map f.verdictOf).getD .malformed)
  | .sweep _ _ | .define _ _ | .retract _ _ _ => none

/-- The fleet in which nothing but the counts has changed. -/
def counting (f : Fleet) (v : Verdict) : Fleet := { f with stats := f.stats.count v }

/-- Fleets that know the same of all agents but one. -/
structure SameButFor (agent : String) (f g : Fleet) : Prop where
  filter : ∀ a, a ≠ agent → g.filter.get? a = f.filter.get? a
  registry : ∀ a, a ≠ agent → g.registry.get? a = f.registry.get? a
  observed : ∀ a, a ≠ agent → g.observed.get? a = f.observed.get? a
  desired : ∀ a, a ≠ agent → g.desired.agents.get? a = f.desired.agents.get? a
  definitions : g.desired.definitions = f.desired.definitions
  nodes : g.nodes = f.nodes

theorem verdictOf_of_accepted {f : Fleet} {h : Heartbeat}
    (haccepted : Filter.judge (f.filter.get? h.name) (.ofHeartbeat h) = .accepted) :
    f.verdictOf h = .accepted := by
  rw [verdictOf, Filter.decide_fst, if_pos haccepted]

theorem verdictOf_of_stale {f : Fleet} {h : Heartbeat}
    (hstale : Filter.judge (f.filter.get? h.name) (.ofHeartbeat h) ≠ .accepted) :
    f.verdictOf h = .rejected := by
  rw [verdictOf, Filter.decide_fst, if_neg hstale]

theorem consume_of_stale {f : Fleet} {h : Heartbeat}
    (hstale : Filter.judge (f.filter.get? h.name) (.ofHeartbeat h) ≠ .accepted) (now : Timestamp) :
    f.consume h now = (.rejected (Filter.judge (f.filter.get? h.name) (.ofHeartbeat h)), f.counting .rejected) :=
  judge_of_stale (f := f.countReceived) hstale now

/-- An accepted report is noted under the name of its agent, and only there. -/
theorem sameButFor_consume {f : Fleet} {h : Heartbeat}
    (haccepted : Filter.judge (f.filter.get? h.name) (.ofHeartbeat h) = .accepted) (now : Timestamp) :
    (∃ arrival commands, (f.consume h now).1 = .accepted arrival commands) ∧
      f.SameButFor h.name (f.consume h now).2 ∧ (f.consume h now).2.stats = f.stats.count .accepted := by
  have hjudge := judge_of_accepted (f := f.countReceived) haccepted now
  rw [consume, hjudge]
  refine ⟨⟨_, _, rfl⟩, ⟨fun a ha => ?_, fun a ha => ?_, fun a ha => ?_, fun a ha => ?_, ?_, rfl⟩, rfl⟩
  · exact KeyMap.get?_insert_of_ne _ _ ha
  · exact (Registry.get?_receive ..).trans (if_neg ha)
  · exact KeyMap.get?_insert_of_ne _ _ ha
  · exact Desired.get?_enroll_of_ne f.desired ha h.labels
  · exact Desired.definitions_enroll f.desired h.name h.labels

theorem ingest_of_decode {f : Fleet} {payload : Bytes} {h : Heartbeat}
    (hdecode : Heartbeat.decode? payload = some h) (now : Timestamp) :
    f.ingest payload now = (some (h.name, (f.consume h now).1), (f.consume h now).2) := by
  rw [ingest, hdecode]
  rfl

theorem ingest_of_malformed {f : Fleet} {payload : Bytes} (hdecode : Heartbeat.decode? payload = none)
    (now : Timestamp) : f.ingest payload now = (none, f.counting .malformed) := by
  rw [ingest, hdecode]
  rfl

/-! ## Runs -/

/-- What becomes of the messages that the calls of a run bring. -/
def verdicts : Fleet → List Event → List Verdict
  | _, [] => []
  | f, e :: es => (f.verdict? e).toList ++ (f.after e).verdicts es

theorem stats_consume (f : Fleet) (h : Heartbeat) (now : Timestamp) :
    (f.consume h now).2.stats = f.stats.count (f.verdictOf h) := by
  by_cases haccepted : Filter.judge (f.filter.get? h.name) (.ofHeartbeat h) = .accepted
  · rw [(sameButFor_consume haccepted now).2.2, verdictOf_of_accepted haccepted]
  · rw [consume_of_stale haccepted, verdictOf_of_stale haccepted]
    rfl

theorem stats_after (f : Fleet) (e : Event) :
    (f.after e).stats = f.stats.countAll (f.verdict? e).toList := by
  cases e with
  | consume h now => exact f.stats_consume h now
  | ingest payload now =>
      cases hdecode : Heartbeat.decode? payload with
      | none =>
          rw [after, call, ingest_of_malformed hdecode, verdict?, hdecode]
          rfl
      | some h =>
          rw [after, call, ingest_of_decode hdecode, verdict?, hdecode]
          exact f.stats_consume h now
  | sweep limit now => rfl
  | define w now => rfl
  | retract ns name now =>
      rw [after, call]
      cases f.desired.retract ns name now <;> rfl

theorem stats_afterAll (f : Fleet) (es : List Event) :
    (f.afterAll es).stats = f.stats.countAll (f.verdicts es) := by
  induction es generalizing f with
  | nil => rfl
  | cons e es ih =>
      have hstep : f.afterAll (e :: es) = (f.after e).afterAll es := rfl
      rw [hstep, ih, stats_after, verdicts, IngestStats.countAll, IngestStats.countAll, IngestStats.countAll,
        List.foldl_append]

theorem Reached.balanced {ds : List Delivery} {f : Fleet} (h : Reached ds f) : f.stats.Balanced := by
  induction h with
  | start ws now => rfl
  | call _ e ih =>
      rw [stats_after]
      exact ih.countAll _
  | cycle _ hcycles ih =>
      rw [cycles_fleet hcycles, stats_after]
      exact ih.countAll _
  | restore => rfl

end Fleet

namespace Controller

variable {σ : Type}

/-- What becomes of a message on the topic of reports. -/
structure HandleSpec (c : Controller σ) (payload : Bytes) (now : Timestamp) : Prop where
  /-- A message that is no report is counted, and that is all. -/
  malformed : Heartbeat.decode? payload = none → (c.fleet.ingest payload now).1 = none ∧
    c.handle payload now = { c with fleet := c.fleet.counting .malformed }
  /-- A report that the filter rejects is counted, and that is all. -/
  rejected : ∀ h decision, Heartbeat.decode? payload = some h →
    (c.fleet.filter.decide h.name (.ofHeartbeat h)).1 = decision → decision ≠ .accepted →
    (c.fleet.ingest payload now).1 = some (h.name, .rejected decision) ∧
      c.handle payload now = { c with fleet := c.fleet.counting .rejected }
  /-- A report that the filter accepts changes what is known of its agent alone, and the dispatcher is handed
  the commands that it leads to, one after the other, on the data topic of the agent. -/
  accepted : ∀ h, Heartbeat.decode? payload = some h →
    (c.fleet.filter.decide h.name (.ofHeartbeat h)).1 = .accepted →
    ∃ arrival commands, (c.fleet.ingest payload now).1 = some (h.name, .accepted arrival commands) ∧
      c.handle payload now =
        { c with
          fleet := (c.fleet.ingest payload now).2
          dispatcher := (c.dispatcher.offerAll (commands.map fun k => ⟨Topic.data h.name, k.encode⟩)).2 } ∧
      c.fleet.SameButFor h.name (c.fleet.ingest payload now).2 ∧
      (c.fleet.ingest payload now).2.stats = c.fleet.stats.count .accepted

theorem handleSpec (c : Controller σ) (payload : Bytes) (now : Timestamp) : c.HandleSpec payload now where
  malformed hdecode := by
    rw [handle, Fleet.ingest_of_malformed hdecode]
    exact ⟨rfl, rfl⟩
  rejected h decision hdecode hdecision hstale := by
    rw [Filter.decide_fst] at hdecision
    subst hdecision
    rw [handle, Fleet.ingest_of_decode hdecode, Fleet.consume_of_stale hstale]
    exact ⟨rfl, rfl⟩
  accepted h hdecode haccepted := by
    rw [Filter.decide_fst] at haccepted
    obtain ⟨⟨arrival, commands, houtcome⟩, hothers, hstats⟩ := Fleet.sameButFor_consume haccepted now
    refine ⟨arrival, commands, ?_⟩
    rw [handle, Fleet.ingest_of_decode hdecode, houtcome]
    exact ⟨rfl, rfl, hothers, hstats⟩

/-- Whatever arrives at a controller whose fleet has come into its state by calls: what is no report and what
the filter rejects changes no store, no row and no queue, an accepted report concerns one agent only, and of
all that arrives, now and in a later run, each message is counted once as accepted, rejected or malformed. -/
theorem refusals_leave_no_trace {c : Controller σ} {ds : List Fleet.Delivery} (h : Fleet.Reached ds c.fleet) :
    (∀ payload now, c.HandleSpec payload now) ∧ c.fleet.stats.Balanced ∧
      ∀ es, let vs := c.fleet.verdicts es
        (c.fleet.afterAll es).stats =
          ⟨c.fleet.stats.received + vs.length, c.fleet.stats.accepted + vs.count .accepted,
            c.fleet.stats.rejected + vs.count .rejected, c.fleet.stats.malformed + vs.count .malformed⟩ ∧
          (c.fleet.afterAll es).stats.Balanced := by
  refine ⟨c.handleSpec, h.balanced, fun es => ⟨?_, ?_⟩⟩
  · rw [Fleet.stats_afterAll, IngestStats.countAll_eq]
  · rw [Fleet.stats_afterAll]
    exact h.balanced.countAll _

/-- A report that was overtaken does nothing, and it is counted beside what is no report and one that is
accepted. -/
theorem refusals_leave_no_trace_overtaken :
    let report (seqnum : UInt64) : Heartbeat := { Heartbeat.ofName "edge-1" with seqnum }
    let fleet : Fleet := .ofDefinitions [⟨"web", "fleet", ⟨"nginx", [], ∅, ∅⟩⟩] .epoch
    let c : Controller MemoryStore :=
      .start (fleet.after (.consume (report 2) .epoch)) .empty ⟨"fleet", .none, 100, ⟨1, 1, 0⟩, 60⟩ 4
    let es : List Fleet.Event :=
      [.ingest (report 1).encode .epoch, .ingest [123] .epoch, .consume (report 3) .epoch]
    (∃ ds, Fleet.Reached ds c.fleet) ∧
      c.handle (report 1).encode .epoch = { c with fleet := c.fleet.counting .rejected } ∧
      (c.fleet.afterAll es).stats = ⟨4, 2, 1, 1⟩ := by
  intro report fleet c es
  have hreached : Fleet.Reached _ c.fleet := (Fleet.Reached.start _ .epoch).call (.consume (report 2) .epoch)
  obtain ⟨hspec, -, hruns⟩ := refusals_leave_no_trace hreached
  have hdecode : Heartbeat.decode? (report 1).encode = some (report 1) := by decide +kernel
  have hdecision : (c.fleet.filter.decide "edge-1" (.ofHeartbeat (report 1))).1 = .staleSeq 2 := by
    decide +kernel
  have hverdicts : c.fleet.verdicts es = [.rejected, .malformed, .accepted] := by decide +kernel
  have hstats : c.fleet.stats = ⟨1, 1, 0, 0⟩ := by decide +kernel
  refine ⟨⟨_, hreached⟩, ?_, ?_⟩
  · exact ((hspec (report 1).encode .epoch).rejected _ _ hdecode hdecision (by decide)).2
  · rw [(hruns es).1, hverdicts, hstats]
    rfl

end Controller

end EdgeFleet
