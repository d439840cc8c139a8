import EdgeFleet.Proofs.Api.Guard
import EdgeFleet.Proofs.Snapshot.Attempts
import EdgeFleet.Proofs.Snapshot.Handover

/-! # The loop in small steps

The loop starts a cycle when one is due, and returns when it is told to stop. Here a cycle takes many steps:
its calls are tried in any order, fail as they like and take their time, and its messages are handed out one
by one. Between any two steps reports may arrive, definitions may change and the queue may move. The loop as
it is run is one of the many ways through these steps.
-/

namespace EdgeFleet

namespace Pace

/-- The moment from which the next period counts. -/
def tick (p : Pace) : Nat := if p.due + tolerance < p.next then p.next else p.due

theorem due_le_tick (p : Pace) : p.due ≤ p.tick := by
  unfold tick
  split <;> omega

theorem tick_le_next (p : Pace) : p.tick ≤ p.next := by
  unfold tick
  split
  · exact Nat.le_refl _
  · exact Nat.le_max_left _ _

theorem next_le_tick (p : Pace) : p.next ≤ p.tick + tolerance := by
  unfold tick
  split <;> omega

@[simp] theorem due_advance (p : Pace) (duration : Nat) : (p.advance duration).due = p.tick + p.period :=
  rfl

@[simp] theorem ended_advance (p : Pace) (duration : Nat) : (p.advance duration).ended = p.next + duration :=
  rfl

end Pace

variable {σ : Type}

/-! ## What goes on beside the cycles -/

/-- A message or a request arrives, something happens to the queue, or the connection comes or goes. -/
inductive Controller.Moves (c : Controller σ) : Controller σ → Prop
  | handle (payload : Bytes) (now : Timestamp) : Moves c (c.handle payload now)
  | respond (env : Option Bytes) (r : Api.Request) (now : Timestamp) : Moves c (Api.respond env c r now).2
  | stir {d} (h : c.dispatcher.Stir d) : Moves c { c with dispatcher := d }
  | connection {health : Health} (h : health.lastSnapshot = c.health.lastSnapshot) : Moves c { c with health }

/-- Any number of changes of a queue. -/
abbrev Dispatcher.Stirs : Dispatcher → Dispatcher → Prop := Relation.ReflTransGen Dispatcher.Stir

theorem Dispatcher.stirs_offerAll (d : Dispatcher) (ms : List Message) : d.Stirs (d.offerAll ms).2 := by
  induction ms generalizing d with
  | nil => exact .refl
  | cons m ms ih =>
      rw [offerAll_cons]
      exact .head (.offer m) (ih _)

/-- A call of the fleet that is a sweep, with its limit and its time. -/
def Fleet.Event.sweep? : Fleet.Event → Option (Nat × Timestamp)
  | .sweep limit now => some (limit, now)
  | _ => none

namespace Controller

variable {c c' : Controller σ}

/-- The fleet takes calls, but no sweep; the queue moves; the store and what concerns the cycles stay. -/
structure Beside (c c' : Controller σ) : Prop where
  engine : c'.engine = c.engine
  store : c'.store = c.store
  lastSnapshot : c'.health.lastSnapshot = c.health.lastSnapshot
  fleet : ∃ es, c'.fleet = c.fleet.afterAll es ∧ es.filterMap Fleet.Event.sweep? = []
  dispatcher : c.dispatcher.Stirs c'.dispatcher

theorem Beside.refl (c : Controller σ) : c.Beside c := ⟨rfl, rfl, rfl, ⟨[], rfl, rfl⟩, .refl⟩

theorem beside_handle (c : Controller σ) (payload : Bytes) (now : Timestamp) :
    c.Beside (c.handle payload now) := by
  have hfleet : (c.handle payload now).fleet = c.fleet.afterAll [.ingest payload now] := by
    simp only [handle, Fleet.afterAll, List.foldl_cons, List.foldl_nil, Fleet.after, Fleet.call]
    split <;> simp_all
  rw [handle] at hfleet ⊢
  split at hfleet
  · exact ⟨rfl, rfl, rfl, ⟨_, hfleet, rfl⟩, Dispatcher.stirs_offerAll ..⟩
  · exact ⟨rfl, rfl, rfl, ⟨_, hfleet, rfl⟩, .refl⟩

theorem beside_respond (env : Option Bytes) (c : Controller σ) (r : Api.Request) (now : Timestamp) :
    c.Beside (Api.respond env c r now).2 := by
  rcases Api.respond_cases env c r now with hsame | ⟨-, k, commands, desired, hasks, hanswer⟩
  · rw [hsame]
    exact .refl c
  · rw [hanswer]
    refine ⟨rfl, rfl, rfl, ?_, Dispatcher.stirs_offerAll ..⟩
    cases hasks with
    | put _ _ _ => exact ⟨[.define _ now], rfl, rfl⟩
    | @delete _ _ ns name _ _ _ _ _ _ hheld =>
        refine ⟨[.retract ns name now], ?_, rfl⟩
        simp only [Fleet.afterAll, List.foldl_cons, List.foldl_nil, Fleet.after, Fleet.call, hheld]
        rfl

theorem Moves.beside (h : c.Moves c') : c.Beside c' := by
  cases h with
  | handle payload now => exact beside_handle c payload now
  | respond env r now => exact beside_respond env c r now
  | stir h => exact ⟨rfl, rfl, rfl, ⟨[], rfl, rfl⟩, .single h⟩
  | connection h => exact ⟨rfl, rfl, h, ⟨[], rfl, rfl⟩, .refl⟩

end Controller

/-- Messages handed over to a queue that others use as well, each with whether it was taken. -/
inductive Dispatcher.Passes (d₀ : Dispatcher) : List (Handout × Bool) → Dispatcher → Prop
  | refl : Passes d₀ [] d₀
  | stir {log d d'} (h : Passes d₀ log d) (hstir : d.Stir d') : Passes d₀ log d'
  | offer {log d} (h : Passes d₀ log d) (o : Handout) :
      Passes d₀ (log ++ [(o, (d.offer o.message).1)]) (d.offer o.message).2

theorem Dispatcher.Passes.stirs {d₀ d d' : Dispatcher} {log : List (Handout × Bool)} (h : d₀.Passes log d)
    (hstirs : d.Stirs d') : d₀.Passes log d' := by
  induction hstirs with
  | refl => exact h
  | tail _ hstir ih => exact ih.stir hstir

/-- Handing out for a cycle is one way to use the queue. -/
theorem Dispatcher.Passes.step {d₀ : Dispatcher} {fleet : Fleet} {w w' : Welcoming}
    (h : d₀.Passes w.log w.dispatcher) (hstep : Welcoming.Step fleet w w') : d₀.Passes w'.log w'.dispatcher := by
  cases hstep with
  | stir hstir => exact h.stir hstir
  | @command c _ _ queued d hoffer =>
      have hpasses := h.offer (.command w.agent c)
      rw [Handout.message, hoffer] at hpasses
      exact hpasses
  | @ack a _ _ _ queued d hoffer =>
      have hpasses := h.offer (.ack a)
      rw [Handout.message, hoffer] at hpasses
      exact hpasses

/-! ## Cycles and their stages -/

/-- The cycle when its calls took some milliseconds of their own. -/
def Cycle.prolonged (c : Cycle σ) (spent : Nat) : Cycle σ :=
  { c with report := { c.report with elapsed := c.report.elapsed + spent } }

namespace Loop

/-! ## States -/

/-- The start of a cycle: the pace and the controller at that moment, and the time of day. -/
structure Start (σ : Type) where
  pace : Pace
  controller : Controller σ
  time : Timestamp

namespace Start

def started (s : Start σ) : Nat := s.pace.next

def engine (s : Start σ) : Engine := s.controller.engine

def effort (s : Start σ) : Effort := s.engine.settings.effort

def sweep (s : Start σ) : Sweep × Fleet :=
  s.controller.fleet.sweep s.engine.settings.heartbeatTimeout s.time

def agents (s : Start σ) : AgentMap := s.engine.agentsToStore s.controller.fleet s.time

def chunks (s : Start σ) : List Chunk := s.engine.chunksToStore s.controller.fleet s.time

end Start

/-- A cycle that is over. -/
structure Round (σ : Type) where
  start : Start σ
  deletes : Batch.Logged σ String
  creates : Batch.Logged σ Chunk
  welcoming : Welcoming
  /-- For each agent that was welcomed, the fleet as it was then. -/
  fleets : List Fleet
  /-- Milliseconds that the calls themselves took. -/
  spent : Nat

namespace Round

/-- The cycle with nothing handed out yet. -/
def stored (r : Round σ) : Cycle σ :=
  r.start.engine.conclude r.start.sweep.2 r.start.sweep.1 r.start.agents.encode
    (r.start.engine.settings.codec.compress r.start.agents.encode)
    (.of r.deletes.batch r.creates.batch) r.start.controller.dispatcher

def cycle (r : Round σ) : Cycle σ := (r.stored.withWelcoming r.welcoming).prolonged r.spent

def ended (r : Round σ) : Nat := r.start.started + r.cycle.report.elapsed

end Round

/-- What the loop is doing. A cycle under way holds the store, and while it hands out messages, the queue. -/
inductive Stage (σ : Type) where
  | waiting
  | deleting (s : Start σ) (t : Batch.Logged σ String)
  | creating (s : Start σ) (deletes : Batch.Logged σ String) (t : Batch.Logged σ Chunk)
  | welcoming (s : Start σ) (deletes : Batch.Logged σ String) (creates : Batch.Logged σ Chunk)
      (w : Welcoming) (fleets : List Fleet)
  | returned (time : Nat)

/-- The cycle under way. -/
def Stage.start? : Stage σ → Option (Start σ)
  | .waiting | .returned _ => none
  | .deleting s _ | .creating s _ _ | .welcoming s _ _ _ _ => some s

/-- The queue, while a cycle holds it. -/
def Stage.dispatcher? : Stage σ → Option Dispatcher
  | .welcoming _ _ _ w _ => some w.dispatcher
  | _ => none

def Stage.withDispatcher (d : Dispatcher) : Stage σ → Stage σ
  | .welcoming s deletes creates w fleets => .welcoming s deletes creates { w with dispatcher := d } fleets
  | stage => stage

@[simp] theorem Stage.start?_withDispatcher (stage : Stage σ) (d : Dispatcher) :
    (stage.withDispatcher d).start? = stage.start? := by
  cases stage <;> rfl

theorem Stage.withDispatcher_eq_returned {stage : Stage σ} {d : Dispatcher} {time : Nat}
    (h : stage.withDispatcher d = .returned time) : stage = .returned time := by
  cases stage <;> first | exact h | cases h

end Loop

/-- A loop, with the cycles that are over, the first one first. -/
structure Loop (σ : Type) where
  pace : Pace
  controller : Controller σ
  stage : Loop.Stage σ
  rounds : List (Loop.Round σ)

namespace Loop

def start (c : Controller σ) (period : Nat) : Loop σ := ⟨.start period, c, .waiting, []⟩

/-- The controller as others find it. -/
def current (l : Loop σ) : Controller σ :=
  { l.controller with dispatcher := l.stage.dispatcher?.getD l.controller.dispatcher }

theorem current_dispatcher (l : Loop σ) :
    l.current.dispatcher = l.stage.dispatcher?.getD l.current.dispatcher := by
  rw [current]
  cases l.stage.dispatcher? <;> rfl

/-- The cycles that were started, the first one first. -/
def starts (l : Loop σ) : List (Start σ) := l.rounds.map (·.start) ++ l.stage.start?.toList

/-- The controller after a cycle. Its fleet has gone on during the cycle. -/
def after (c : Controller σ) (r : Round σ) : Controller σ :=
  ⟨c.fleet, r.cycle.store, r.cycle.engine, r.cycle.dispatcher,
    { c.health with lastSnapshot := some r.cycle.report }⟩

/-! ## Steps -/

variable [ChunkStore σ]

/-- One more step of the cycle under way: a try of a call, the turn to the creations or to the messages, or
a message. -/
inductive Stage.Works (c : Controller σ) : Stage σ → Stage σ → Prop
  | delete {s t t'} (h : Batch.Logged.Step s.effort (deleteCall s.engine.settings.ns) t t') :
      Works c (.deleting s t) (.deleting s t')
  | turn {s t} (h : t.batch.running = []) :
      Works c (.deleting s t) (.creating s t (.start s.effort t.batch.store s.chunks))
  | create {s deletes t t'} (h : Batch.Logged.Step s.effort createCall t t') :
      Works c (.creating s deletes t) (.creating s deletes t')
  | greet {s deletes t} (h : t.batch.running = []) :
      Works c (.creating s deletes t) (.welcoming s deletes t (.start s.sweep.1.acks c.dispatcher) [])
  | welcome {s deletes creates w w' fleets} (h : Welcoming.Step c.fleet w w') :
      Works c (.welcoming s deletes creates w fleets)
        (.welcoming s deletes creates w'
          (fleets ++ List.replicate (w.acks.length - w'.acks.length) c.fleet))

/-- One step of a loop that is told to stop at the given time. When a cycle is due and the loop is to stop
at once, either may happen. -/
inductive Step (stop : Nat) (l : Loop σ) : Loop σ → Prop
  /-- Something happens beside the cycles. -/
  | other {c : Controller σ} (h : l.current.Moves c) :
      Step stop l { l with controller := c, stage := l.stage.withDispatcher c.dispatcher }
  /-- The loop waits for the tick and for the end at once; this one comes first. -/
  | begin {s : Start σ} (h : l.stage = .waiting) (hpace : s.pace = l.pace)
      (hcontroller : s.controller = l.controller) (hdue : l.pace.next ≤ max stop l.pace.ended) :
      Step stop l
        { l with
          controller := { l.controller with fleet := s.sweep.2 }
          stage := .deleting s (.start s.effort s.controller.store s.engine.previous) }
  | work {stage : Stage σ} (h : l.stage.Works l.controller stage) : Step stop l { l with stage }
  | finish {r : Round σ} (h : l.stage = .welcoming r.start r.deletes r.creates r.welcoming r.fleets)
      (hover : r.welcoming.isOver) :
      Step stop l
        ⟨l.pace.advance r.cycle.report.elapsed, after l.controller r, .waiting, l.rounds ++ [r]⟩
  | leave (h : l.stage = .waiting) (hstop : max stop l.pace.ended ≤ l.pace.next) :
      Step stop l { l with stage := .returned (max stop l.pace.ended) }

abbrev Steps (stop : Nat) : Loop σ → Loop σ → Prop := Relation.ReflTransGen (Step stop)

/-- The states of a loop that began with the controller. -/
abbrev Reached (c : Controller σ) (period stop : Nat) : Loop σ → Prop := Steps stop (start c period)

namespace Start

/-- The deletions tried so far. -/
def Deletes (s : Start σ) : Batch.Logged σ String → Prop :=
  Batch.Logged.Steps s.effort (deleteCall s.engine.settings.ns)
    (.start s.effort s.controller.store s.engine.previous)

/-- The creations tried so far, after the given deletions. -/
def Creates (s : Start σ) (deletes : Batch.Logged σ String) : Batch.Logged σ Chunk → Prop :=
  Batch.Logged.Steps s.effort createCall (.start s.effort deletes.batch.store s.chunks)

end Start

theorem Stage.Works.start? {c : Controller σ} {stage stage' : Stage σ} (h : stage.Works c stage') :
    stage'.start? = stage.start? := by
  cases h <;> rfl

theorem Stage.Works.ne_returned {c : Controller σ} {stage stage' : Stage σ} (h : stage.Works c stage')
    (time : Nat) : stage' ≠ .returned time := by
  cases h <;> nofun

/-! ## Going on to the end -/

variable {stop : Nat} {p : Pace} {c : Controller σ} {s : Start σ} {rounds : List (Round σ)}

theorem steps_delete {t t' : Batch.Logged σ String}
    (h : Batch.Logged.Steps s.effort (deleteCall s.engine.settings.ns) t t') :
    Steps stop ⟨p, c, .deleting s t, rounds⟩ ⟨p, c, .deleting s t', rounds⟩ := by
  induction h with
  | refl => exact .refl
  | tail _ hstep ih => exact ih.tail (.work (.delete hstep))

theorem steps_create {deletes : Batch.Logged σ String} {t t' : Batch.Logged σ Chunk}
    (h : Batch.Logged.Steps s.effort createCall t t') :
    Steps stop ⟨p, c, .creating s deletes t, rounds⟩ ⟨p, c, .creating s deletes t', rounds⟩ := by
  induction h with
  | refl => exact .refl
  | tail _ hstep ih => exact ih.tail (.work (.create hstep))

theorem steps_welcome {deletes : Batch.Logged σ String} {creates : Batch.Logged σ Chunk} {w w' : Welcoming}
    (h : Welcoming.Steps c.fleet w w') (fleets : List Fleet) : ∃ fleets',
    Steps stop ⟨p, c, .welcoming s deletes creates w fleets, rounds⟩
      ⟨p, c, .welcoming s deletes creates w' fleets', rounds⟩ := by
  induction h with
  | refl => exact ⟨fleets, .refl⟩
  | tail _ hstep ih =>
      obtain ⟨fleets', hsteps⟩ := ih
      exact ⟨_, hsteps.tail (.work (.welcome hstep))⟩

/-- Once all messages are handed over, the cycle is over. -/
theorem steps_finish (r : Round σ) (hover : r.welcoming.isOver) :
    Steps stop ⟨p, c, .welcoming r.start r.deletes r.creates r.welcoming r.fleets, rounds⟩
      ⟨p.advance r.cycle.report.elapsed, after c r, .waiting, rounds ++ [r]⟩ :=
  .single (.finish rfl hover)

theorem steps_leave (h : stop ≤ p.next) :
    Steps stop ⟨p, c, .waiting, rounds⟩ ⟨p, c, .returned (max stop p.ended), rounds⟩ :=
  .single (.leave rfl (Nat.max_le.mpr ⟨h, Nat.le_max_right _ _⟩))

/-- The messages can be handed over, whichever are left. -/
theorem exists_steps_of_welcoming (stop : Nat) (deletes : Batch.Logged σ String)
    (creates : Batch.Logged σ Chunk) (w : Welcoming) (fleets : List Fleet) : ∃ duration c' rounds',
    Steps stop ⟨p, c, .welcoming s deletes creates w fleets, rounds⟩
      ⟨p.advance duration, c', .waiting, rounds'⟩ := by
  obtain ⟨log, hcommands⟩ := Welcoming.exists_steps_commands c.fleet w
  obtain ⟨w', hacks, hover, -⟩ := Welcoming.exists_steps_welcome c.fleet
    (w := { w with
      commands := []
      counts := (w.counts.1, w.counts.2 + (w.dispatcher.offerAll (w.commands.map (.ofCommand w.agent))).1)
      dispatcher := (w.dispatcher.offerAll (w.commands.map (.ofCommand w.agent))).2
      log }) rfl
  obtain ⟨fleets', hsteps⟩ := steps_welcome (hcommands.trans hacks) fleets
  exact ⟨_, _, _, hsteps.trans (steps_finish ⟨s, deletes, creates, w', fleets', 0⟩ hover)⟩

theorem exists_steps_of_creating (stop : Nat) {deletes : Batch.Logged σ String} {t : Batch.Logged σ Chunk}
    (h : s.Creates deletes t) : ∃ duration c' rounds',
    Steps stop ⟨p, c, .creating s deletes t, rounds⟩ ⟨p.advance duration, c', .waiting, rounds'⟩ := by
  obtain ⟨t', hcreates, hdone⟩ := Batch.Logged.exists_steps_done h
  obtain ⟨duration, c', rounds', hrest⟩ :=
    exists_steps_of_welcoming stop deletes t' (.start s.sweep.1.acks c.dispatcher) []
  exact ⟨duration, c', rounds', ((steps_create hcreates).tail (.work (.greet hdone))).trans hrest⟩

theorem exists_steps_of_deleting (stop : Nat) {t : Batch.Logged σ String} (h : s.Deletes t) :
    ∃ duration c' rounds',
      Steps stop ⟨p, c, .deleting s t, rounds⟩ ⟨p.advance duration, c', .waiting, rounds'⟩ := by
  obtain ⟨t', hdeletes, hdone⟩ := Batch.Logged.exists_steps_done h
  have hnone : s.Creates t' (.start s.effort t'.batch.store s.chunks) := .refl
  obtain ⟨duration, c', rounds', hrest⟩ := exists_steps_of_creating stop hnone
  exact ⟨duration, c', rounds', ((steps_delete hdeletes).tail (.work (.turn hdone))).trans hrest⟩

/-- A loop that waits can go on until it returns. Every cycle brings it a period closer to the end. -/
theorem exists_steps_of_waiting (stop : Nat) (p : Pace) (c : Controller σ) (rounds : List (Round σ))
    (hperiod : 0 < p.period) :
    ∃ l time, Steps stop ⟨p, c, .waiting, rounds⟩ l ∧ l.stage = .returned time := by
  induction hleft : stop - p.due using Nat.strong_induction_on generalizing p c rounds with
  | _ n ih =>
      by_cases hstop : max stop p.ended ≤ p.next
      · exact ⟨_, _, .single (.leave rfl hstop), rfl⟩
      · let s : Start σ := ⟨p, c, .epoch⟩
        have hbegin : Step stop ⟨p, c, .waiting, rounds⟩ ⟨p, { c with fleet := s.sweep.2 },
            .deleting s (.start s.effort c.store s.engine.previous), rounds⟩ :=
          .begin (s := s) rfl rfl rfl (Nat.le_of_not_le hstop)
        obtain ⟨duration, c', rounds', hcycle⟩ := exists_steps_of_deleting stop (s := s) .refl
        have hcloser : stop - (p.advance duration).due < n := by
          have hdue : p.due ≤ p.next := Nat.le_max_left _ _
          have hended : p.ended ≤ p.next := Nat.le_max_right _ _
          have htick := p.due_le_tick
          rw [Pace.due_advance]
          omega
        obtain ⟨l, time, hrest, hreturned⟩ := ih _ hcloser (p.advance duration) c' rounds' hperiod rfl
        exact ⟨l, time, (hcycle.trans hrest).head hbegin, hreturned⟩

/-! ## The loop of the controller is one of them -/

/-- The cycle that starts now, without interruption and with the calls run by their due times, as a round. -/
theorem exists_steps_cycle (stop : Nat) (p : Pace) (c : Controller σ) (rounds : List (Round σ))
    (hdue : p.next ≤ max stop p.ended) (now : Timestamp) : ∃ r : Round σ,
    r.start = ⟨p, c, now⟩ ∧ r.cycle = c.engine.cycle c.fleet c.store c.dispatcher now ∧
      (c.cycle now).2 = after { c with fleet := r.cycle.fleet } r ∧
      Steps stop ⟨p, c, .waiting, rounds⟩
        ⟨p.advance r.cycle.report.elapsed, (c.cycle now).2, .waiting, rounds ++ [r]⟩ := by
  let s : Start σ := ⟨p, c, now⟩
  let c' : Controller σ := { c with fleet := s.sweep.2 }
  let deletes := Batch.run s.effort (deleteCall s.engine.settings.ns) c.store s.engine.previous
  let creates := Batch.run s.effort createCall deletes.store s.chunks
  obtain ⟨hdeletes, hdeleted⟩ : Batch.Steps s.effort _ _ deletes ∧ _ := Batch.run_spec ..
  obtain ⟨hcreates, hcreated⟩ : Batch.Steps s.effort _ _ creates ∧ _ := Batch.run_spec ..
  obtain ⟨deletions, hdeletes⟩ := Batch.Logged.exists_steps hdeletes []
  obtain ⟨creations, hcreates⟩ := Batch.Logged.exists_steps hcreates []
  obtain ⟨w, hwelcome, hover, hresult⟩ := Welcoming.exists_steps_welcome c'.fleet
    (w := .start s.sweep.1.acks c.dispatcher) rfl
  let ds : Batch.Logged σ String := ⟨deletes, deletions⟩
  let cs : Batch.Logged σ Chunk := ⟨creates, creations⟩
  obtain ⟨fleets, hgreet⟩ : ∃ fleets,
      Steps stop ⟨p, c', .welcoming s ds cs (.start s.sweep.1.acks c.dispatcher) [], rounds⟩
        ⟨p, c', .welcoming s ds cs w fleets, rounds⟩ :=
    steps_welcome hwelcome []
  let r : Round σ := ⟨s, ds, cs, w, fleets, 0⟩
  have hcycle : r.cycle = c.engine.cycle c.fleet c.store c.dispatcher now :=
    Engine.withWelcoming_cycle c.store hresult
  have hafter : (c.cycle now).2 = after c' r := by
    rw [after, hcycle]
    rfl
  refine ⟨r, rfl, hcycle, hafter, ?_⟩
  rw [hafter]
  calc
    Steps stop ⟨p, c, .waiting, rounds⟩
        ⟨p, c', .deleting s (.start s.effort c.store s.engine.previous), rounds⟩ :=
      .single (.begin rfl rfl rfl hdue)
    Steps stop _ ⟨p, c', .creating s ds (.start s.effort deletes.store s.chunks), rounds⟩ :=
      (steps_delete hdeletes).tail (.work (.turn hdeleted))
    Steps stop _ ⟨p, c', .welcoming s ds cs (.start s.sweep.1.acks c.dispatcher) [], rounds⟩ :=
      (steps_create hcreates).tail (.work (.greet hcreated))
    Steps stop _ ⟨p, c', .welcoming s ds cs w fleets, rounds⟩ := hgreet
    Steps stop _ ⟨p.advance r.cycle.report.elapsed, after c' r, .waiting, rounds ++ [r]⟩ :=
      steps_finish r hover

/-- The rounds of a loop that nothing interrupts: each is the cycle of the engine, begun where the last one has
left the controller, and between two of them the workers bring out what waits. -/
inductive Uninterrupted (accepts : Message → Bool) (now : Timestamp) :
    Controller σ → List (Round σ) → Controller σ → Prop
  | nil (c : Controller σ) : Uninterrupted accepts now c [] c
  | cons {c c' : Controller σ} {r : Round σ} {rounds : List (Round σ)} (hstart : r.start.controller = c)
      (htime : r.start.time = now) (hcycle : r.cycle = c.engine.cycle c.fleet c.store c.dispatcher now)
      (hrest : Uninterrupted accepts now
        ⟨r.cycle.fleet, r.cycle.store, r.cycle.engine, (r.cycle.dispatcher.settle accepts).2,
          { c.health with lastSnapshot := some r.cycle.report }⟩ rounds c') :
      Uninterrupted accepts now c (r :: rounds) c'

/-- Each cycle makes the next one due later, so the fuel lasts until the end. -/
theorem exists_steps_loopFor (accepts : Message → Bool) (now : Timestamp) {fuel : Nat} (p : Pace)
    (c : Controller σ) (rounds : List (Round σ)) (hperiod : 0 < p.period)
    (hfuel : stop ≤ p.due + fuel) : ∃ l time more,
    Steps stop ⟨p, c, .waiting, rounds⟩ l ∧ l.stage = .returned time ∧ l.rounds = rounds ++ more ∧
      l.controller = (c.loopFor accepts stop now fuel p).2 ∧ Uninterrupted accepts now c more l.controller ∧
      (c.loopFor accepts stop now fuel p).1 = more.flatMap fun r => (r.cycle.dispatcher.settle accepts).1 := by
  induction fuel generalizing p c rounds with
  | zero =>
      exact ⟨_, _, [], steps_leave (hfuel.trans (Nat.le_max_left _ _)), rfl, (List.append_nil _).symm, rfl,
        .nil c, rfl⟩
  | succ fuel ih =>
      rw [Controller.loopFor]
      split
      · next hstop => exact ⟨_, _, [], steps_leave hstop, rfl, (List.append_nil _).symm, rfl, .nil c, rfl⟩
      · next hgoOn =>
        have hdue : p.due ≤ p.next := Nat.le_max_left _ _
        have htick := p.due_le_tick
        obtain ⟨r, hstart, hrun, hafter, hcycle⟩ := exists_steps_cycle stop p c rounds (by omega) now
        have hreport : (c.cycle now).1 = r.cycle.report := (congrArg Cycle.report hrun).symm
        have hdispatcher : (c.cycle now).2.dispatcher = r.cycle.dispatcher := by
          rw [hafter]
          rfl
        rw [← hreport] at hcycle
        let p' := p.advance (c.cycle now).1.elapsed
        let settled : Controller σ :=
          { (c.cycle now).2 with dispatcher := ((c.cycle now).2.dispatcher.settle accepts).2 }
        have hsettle : Step stop ⟨p', (c.cycle now).2, .waiting, rounds ++ [r]⟩
            ⟨p', settled, .waiting, rounds ++ [r]⟩ :=
          .other (.stir (.settle accepts))
        obtain ⟨l, time, more, hrest, hreturned, hrounds, hcontroller, hmore, hpublished⟩ :=
          ih p' settled (rounds ++ [r]) hperiod (by rw [Pace.due_advance]; omega)
        have hsettled : settled = ⟨r.cycle.fleet, r.cycle.store, r.cycle.engine,
            (r.cycle.dispatcher.settle accepts).2, { c.health with lastSnapshot := some r.cycle.report }⟩ := by
          simp only [settled, hafter]
          rfl
        refine ⟨l, time, r :: more, (hcycle.tail hsettle).trans hrest, hreturned, ?_, hcontroller, ?_, ?_⟩
        · rw [hrounds, List.append_assoc]
          rfl
        · exact .cons (by rw [hstart]) (by rw [hstart]) hrun (hsettled ▸ hmore)
        · rw [List.flatMap_cons, ← hdispatcher, ← hpublished]

end Loop

end EdgeFleet
