import EdgeFleet.Proofs.Fleet.Agreement

/-! # What a cycle hands out

A cycle asks the store for many things and hands out messages after that. Whatever the store answers,
the fleet and the messages are the same: the agents that the sweep has promoted are acknowledged and
sent all that they are to run. The queue may take more of the messages or fewer, and that alone is
what the counts tell.
-/

namespace EdgeFleet

/-! ## Messages -/

/-- What a cycle hands out. -/
inductive Handout where
  | ack (a : Ack)
  | command (agent : String) (c : WorkloadCommand)

namespace Handout

def message : Handout → Message
  | ack a => .ofAck a
  | command agent c => .ofCommand agent c

def isAck : Handout → Bool
  | ack _ => true
  | command _ _ => false

/-- The acknowledgements that the queue took. -/
def acked (log : List (Handout × Bool)) : Nat := log.countP fun o => o.1.isAck && o.2

/-- The commands that the queue took. -/
def commanded (log : List (Handout × Bool)) : Nat := log.countP fun o => !o.1.isAck && o.2

end Handout

/-- What else happens to a queue: the workers go on, others hand over messages, and it may be closed. -/
inductive Dispatcher.Stir (d : Dispatcher) : Dispatcher → Prop
  | take {m d'} (h : d.take? = some (m, d')) : Stir d d'
  | finish (m : Message) (published : Bool) : Stir d (d.finish m published)
  | settle (accepts : Message → Bool) : Stir d (d.settle accepts).2
  | offer (m : Message) : Stir d (d.offer m).2
  | close : Stir d d.close

/-! ## Handing out, message by message -/

/-- A cycle that is handing out: whose turn it is, what is left for that agent and for the others, and
for each message handed over so far whether the queue took it. -/
structure Welcoming where
  acks : List Ack
  agent : String
  commands : List WorkloadCommand
  /-- Acknowledgements and commands that were counted as queued. -/
  counts : Nat × Nat
  dispatcher : Dispatcher
  log : List (Handout × Bool)

namespace Welcoming

def start (acks : List Ack) (d : Dispatcher) : Welcoming := ⟨acks, "", [], (0, 0), d, []⟩

def isOver (w : Welcoming) : Prop := w.acks = [] ∧ w.commands = []

/-- One more message is handed over, or the queue changes in between. -/
inductive Step (fleet : Fleet) (w : Welcoming) : Welcoming → Prop
  | stir {d : Dispatcher} (h : w.dispatcher.Stir d) : Step fleet w { w with dispatcher := d }
  | command {c cs} (h : w.commands = c :: cs) {queued d}
      (hoffer : w.dispatcher.offer (.ofCommand w.agent c) = (queued, d)) :
      Step fleet w
        { w with
          commands := cs
          counts := (w.counts.1, w.counts.2 + queued.toNat)
          dispatcher := d
          log := w.log ++ [(.command w.agent c, queued)] }
  | ack {a as} (h : w.commands = []) (ha : w.acks = a :: as) {queued d}
      (hoffer : w.dispatcher.offer (.ofAck a) = (queued, d)) :
      Step fleet w
        { acks := as
          agent := a.agent
          commands := fleet.desired.commands a.agent
          counts := (w.counts.1 + queued.toNat, w.counts.2)
          dispatcher := d
          log := w.log ++ [(.ack a, queued)] }

abbrev Steps (fleet : Fleet) := Relation.ReflTransGen (Step fleet)

/-- The messages for a promoted agent. -/
def handoutsFor (fleet : Fleet) (a : Ack) : List Handout :=
  .ack a :: (fleet.desired.commands a.agent).map (.command a.agent)

/-- The messages that are left. -/
def pending (fleet : Fleet) (w : Welcoming) : List Handout :=
  w.commands.map (.command w.agent) ++ w.acks.flatMap (handoutsFor fleet)

/-- What was handed over and what is left make up all messages, and the counts are those of the log. -/
structure Tallies (fleet : Fleet) (all : List Handout) (w : Welcoming) : Prop where
  messages : w.log.map (·.1) ++ w.pending fleet = all
  acked : w.counts.1 = Handout.acked w.log
  commanded : w.counts.2 = Handout.commanded w.log

variable {fleet : Fleet} {all : List Handout} {w w' : Welcoming}

theorem tallies_start (fleet : Fleet) (acks : List Ack) (d : Dispatcher) :
    (start acks d).Tallies fleet (acks.flatMap (handoutsFor fleet)) :=
  ⟨rfl, rfl, rfl⟩

theorem Tallies.step (h : w.Tallies fleet all) (hstep : Step fleet w w') : w'.Tallies fleet all := by
  obtain ⟨hmessages, hacked, hcommanded⟩ := h
  cases hstep with
  | stir _ => exact ⟨hmessages, hacked, hcommanded⟩
  | @command c cs hcs queued d hoffer =>
      refine ⟨?_, ?_, ?_⟩
      · rw [← hmessages, pending, pending, hcs]
        simp
      · simp [Handout.acked, Handout.isAck, hacked]
      · cases queued <;> simp [Handout.commanded, Handout.isAck, hcommanded]
  | @ack a as hcs has queued d hoffer =>
      refine ⟨?_, ?_, ?_⟩
      · rw [← hmessages, pending, pending, hcs, has]
        simp [handoutsFor]
      · cases queued <;> simp [Handout.acked, Handout.isAck, hacked]
      · simp [Handout.commanded, Handout.isAck, hcommanded]

theorem Tallies.steps (h : w.Tallies fleet all) (hsteps : Steps fleet w w') : w'.Tallies fleet all := by
  induction hsteps with
  | refl => exact h
  | tail _ hstep ih => exact ih.step hstep

theorem Tallies.of_isOver (h : w.Tallies fleet all) (hover : w.isOver) : w.log.map (·.1) = all := by
  rw [← h.messages, pending, hover.1, hover.2]
  simp

end Welcoming

/-! ### Handing out without interruption -/

theorem Dispatcher.foldl_offer (ms : List Message) (n : Nat) (d : Dispatcher) :
    (ms.foldl (fun (n, d) m =>
      let (queued, d) := d.offer m
      (n + queued.toNat, d)) (n, d)) = (n + (d.offerAll ms).1, (d.offerAll ms).2) := by
  induction ms generalizing n d with
  | nil => rfl
  | cons m ms ih =>
      rw [offerAll, List.foldl_cons, List.foldl_cons, ih, ih, Nat.zero_add, Nat.add_assoc]

theorem Dispatcher.offerAll_cons (d : Dispatcher) (m : Message) (ms : List Message) :
    d.offerAll (m :: ms) =
      ((d.offer m).1.toNat + ((d.offer m).2.offerAll ms).1, ((d.offer m).2.offerAll ms).2) := by
  rw [offerAll, List.foldl_cons, foldl_offer, Nat.zero_add]

namespace Welcoming

/-- The commands for one agent, one after the other. -/
theorem exists_steps_commands (fleet : Fleet) (w : Welcoming) :
    ∃ log, Steps fleet w
      { w with
        commands := []
        counts := (w.counts.1, w.counts.2 +
          (w.dispatcher.offerAll (w.commands.map (.ofCommand w.agent))).1)
        dispatcher := (w.dispatcher.offerAll (w.commands.map (.ofCommand w.agent))).2
        log } := by
  obtain ⟨acks, agent, commands, counts, d, log⟩ := w
  induction commands generalizing counts d log with
  | nil => exact ⟨log, .refl⟩
  | cons c cs ih =>
      obtain ⟨log', hrest⟩ := ih (counts.1, counts.2 + (d.offer (.ofCommand agent c)).1.toNat)
        (d.offer (.ofCommand agent c)).2 (log ++ [(.command agent c, (d.offer (.ofCommand agent c)).1)])
      refine ⟨log', .head (.command rfl (Prod.eta _).symm) ?_⟩
      simpa [Dispatcher.offerAll_cons, Nat.add_assoc] using hrest

/-- The loop over the acknowledgements hands everything out. -/
theorem exists_steps_welcome (fleet : Fleet) {w : Welcoming} (hw : w.commands = []) :
    ∃ w', Steps fleet w w' ∧ w'.isOver ∧
      (w'.counts, w'.dispatcher) = w.acks.foldl
        (fun (counts, d) a => Engine.welcome fleet counts d a) (w.counts, w.dispatcher) := by
  obtain ⟨acks, agent, commands, counts, d, log⟩ := w
  induction acks generalizing agent commands counts d log with
  | nil => exact ⟨_, .refl, ⟨rfl, hw⟩, rfl⟩
  | cons a as ih =>
      obtain ⟨log', hcommands⟩ := exists_steps_commands fleet
        ⟨as, a.agent, fleet.desired.commands a.agent, (counts.1 + (d.offer (.ofAck a)).1.toNat, counts.2),
          (d.offer (.ofAck a)).2, log ++ [(.ack a, (d.offer (.ofAck a)).1)]⟩
      obtain ⟨w', hsteps, hover, hresult⟩ := ih a.agent [] _ _ log' rfl
      refine ⟨w', .head (.ack hw rfl (Prod.eta _).symm) (hcommands.trans hsteps), hover, ?_⟩
      rw [hresult, List.foldl_cons]
      rfl

end Welcoming

/-! ## Runs of a cycle -/

/-- The cycle with what its handing out has led to. -/
def Cycle.withWelcoming {σ : Type} (c : Cycle σ) (w : Welcoming) : Cycle σ :=
  { c with
    report := { c.report with acksDispatched := w.counts.1, commandsDispatched := w.counts.2 }
    dispatcher := w.dispatcher }

namespace Engine

variable {σ : Type} [ChunkStore σ]

/-- The runs of a cycle, each with the messages it hands over and whether the queue took them: the calls
to the store may be over in any order and fail as they like, and the queue is in use by others. -/
inductive Runs (e : Engine) (fleet : Fleet) (store : σ) (d : Dispatcher) (now : Timestamp) :
    List (Handout × Bool) → Cycle σ → Prop
  | of_steps {c : Cycle σ} {w : Welcoming} (hcycles : e.Cycles fleet store d now c)
      (hsteps : Welcoming.Steps (fleet.sweep e.settings.heartbeatTimeout now).2
        (.start (fleet.sweep e.settings.heartbeatTimeout now).1.acks d) w)
      (hover : w.isOver) : Runs e fleet store d now w.log (c.withWelcoming w)

/-- A cycle hands out what the loop over its acknowledgements does. -/
theorem withWelcoming_cycle {e : Engine} {fleet : Fleet} (store : σ) {d : Dispatcher} {now : Timestamp}
    {w : Welcoming} (h : (w.counts, w.dispatcher) =
      (fleet.sweep e.settings.heartbeatTimeout now).1.acks.foldl
        (fun (counts, d) a => welcome (fleet.sweep e.settings.heartbeatTimeout now).2 counts d a)
        ((0, 0), d)) :
    (e.cycle fleet store d now).withWelcoming w = e.cycle fleet store d now := by
  have hcounts : w.counts = ((e.cycle fleet store d now).report.acksDispatched,
      (e.cycle fleet store d now).report.commandsDispatched) := congrArg Prod.fst h
  have hdispatcher : w.dispatcher = (e.cycle fleet store d now).dispatcher := congrArg Prod.snd h
  rw [Cycle.withWelcoming, hcounts, hdispatcher]

/-- Without interruption, and with the calls run by their due times, it is the cycle. -/
theorem exists_runs_cycle (e : Engine) (fleet : Fleet) (store : σ) (d : Dispatcher) (now : Timestamp) :
    ∃ log, e.Runs fleet store d now log (e.cycle fleet store d now) := by
  obtain ⟨w, hsteps, hover, hresult⟩ := Welcoming.exists_steps_welcome
    (fleet.sweep e.settings.heartbeatTimeout now).2
    (w := .start (fleet.sweep e.settings.heartbeatTimeout now).1.acks d) rfl
  exact ⟨w.log, withWelcoming_cycle store hresult ▸
    .of_steps (e.cycles_cycle fleet store d now) hsteps hover⟩

section

variable {e : Engine} {f : Fleet} {store : σ} {d : Dispatcher} {now : Timestamp}
  {log : List (Handout × Bool)} {c : Cycle σ}

theorem Runs.fleet (h : e.Runs f store d now log c) :
    c.fleet = (f.sweep e.settings.heartbeatTimeout now).2 := by
  cases h with
  | of_steps hcycles _ _ => exact (Fleet.cycles_fleet hcycles :)

theorem Runs.generation (h : e.Runs f store d now log c) :
    c.engine.generation = e.generation + 1 := by
  cases h with
  | of_steps hcycles _ _ =>
      cases hcycles
      rfl

/-- The messages of a run are those of its sweep, which knows nothing of the store. -/
theorem Runs.messages (h : e.Runs f store d now log c) :
    log.map (·.1) = (f.sweep e.settings.heartbeatTimeout now).1.acks.flatMap
      (Welcoming.handoutsFor (f.sweep e.settings.heartbeatTimeout now).2) := by
  cases h with
  | of_steps _ hsteps hover => exact ((Welcoming.tallies_start _ _ d).steps hsteps).of_isOver hover

theorem Runs.counts (h : e.Runs f store d now log c) :
    c.report.acksDispatched = Handout.acked log ∧
      c.report.commandsDispatched = Handout.commanded log := by
  cases h with
  | of_steps _ hsteps _ =>
      have htallies := (Welcoming.tallies_start _ _ d).steps hsteps
      exact ⟨htallies.acked, htallies.commanded⟩

end

end Engine

/-! ## The messages follow from the fleet -/

/-- The acknowledged agents are those that a sweep promotes. -/
theorem Registry.SweepSpec.mem_promoted {r : Registry} {limit : Nat} {now : Timestamp} {s : Sweep}
    (h : r.SweepSpec limit now s) (agent : String) :
    agent ∈ s.acks.map (·.agent) ↔
      r.stateOf? agent = some .registering ∧ s.registry.stateOf? agent = some .registered := by
  rw [List.mem_map]
  constructor
  · rintro ⟨k, hk, rfl⟩
    obtain ⟨e, he, hstate, -, -⟩ := (h.acks k).mp hk
    have hregistering : r.stateOf? k.agent = some .registering := by
      rw [Registry.stateOf?, he, Option.map_some, hstate]
    exact ⟨hregistering, (h.registered k.agent).mpr (.inl hregistering)⟩
  · rintro ⟨hregistering, -⟩
    rw [Registry.stateOf?, Option.map_eq_some_iff] at hregistering
    obtain ⟨e, he, hstate⟩ := hregistering
    exact ⟨⟨e.record.identifier, true, agent⟩, (h.acks _).mpr ⟨e, he, hstate, rfl, rfl⟩, rfl⟩

namespace Fleet

/-- How an agent is welcomed: an acknowledgement of its last report, and a sync for each workload that it
is to run. -/
def greeting (f : Fleet) (agent : String) : List Handout :=
  match f.registry.get? agent, f.desired.workloads? agent with
  | some e, some workloads =>
    .ack ⟨e.record.identifier, true, agent⟩ ::
      workloads.values.map fun w => .command agent w.syncCommand
  | _, _ => []

/-- Of the agents that the sweep has promoted each is welcomed once, and no other one is. -/
structure Welcomes {σ : Type} (f : Fleet) (log : List (Handout × Bool)) (c : Cycle σ) : Prop where
  messages : ∃ promoted : List String, promoted.Nodup ∧
    (∀ agent, agent ∈ promoted ↔ f.registry.stateOf? agent = some .registering ∧
      c.fleet.registry.stateOf? agent = some .registered) ∧
    log.map (·.1) = promoted.flatMap f.greeting
  acks : c.report.acksDispatched = Handout.acked log
  commands : c.report.commandsDispatched = Handout.commanded log

variable {f : Fleet}

/-- What is handed out for an acknowledgement of a sweep is the greeting of its agent. -/
theorem Coherent.handoutsFor_eq (hf : f.Coherent) {timeout : Nat} {now : Timestamp} {k : Ack}
    (hk : k ∈ (f.sweep timeout now).1.acks) :
    Welcoming.handoutsFor (f.sweep timeout now).2 k = f.greeting k.agent := by
  obtain ⟨e, he, -, hidentifier, haccepted⟩ := (hf.filed.mem_acks _ now k).mp hk
  have hworkloads := hf.desired_workloads? k.agent
  rw [he, Option.map_some] at hworkloads
  have hack : k = ⟨e.record.identifier, true, k.agent⟩ := by rw [← hidentifier, ← haccepted]
  have hcommands : (f.sweep timeout now).2.desired.commands k.agent =
      (f.desired.selected e.record.labels).values.map (·.syncCommand) := by
    change f.desired.commands k.agent = _
    rw [Desired.workloads?, Option.map_eq_some_iff] at hworkloads
    obtain ⟨a, ha, hselected⟩ := hworkloads
    rw [Desired.commands, ha]
    simp only [hselected]
  rw [Welcoming.handoutsFor, hcommands, greeting, he, hworkloads, List.map_map]
  simp only [← hack]
  rfl

theorem Coherent.welcomes (hf : f.Coherent) {σ : Type} [ChunkStore σ] {e : Engine} {store : σ}
    {d : Dispatcher} {now : Timestamp} {log : List (Handout × Bool)} {c : Cycle σ}
    (hruns : e.Runs f store d now log c) : f.Welcomes log c := by
  have hsweep := hf.filed.sweepSpec (e.settings.heartbeatTimeout * 1000000000) now
  refine ⟨⟨(f.sweep e.settings.heartbeatTimeout now).1.acks.map (·.agent), hsweep.once, ?_, ?_⟩,
    hruns.counts.1, hruns.counts.2⟩
  · intro agent
    rw [hruns.fleet]
    exact hsweep.mem_promoted agent
  · rw [hruns.messages, List.flatMap_map]
    exact List.flatMap_congr fun k hk => hf.handoutsFor_eq hk

/-- Whatever two stores hold and however they fail, and whatever else happens to the queues: a cycle
comes to its end with either, and leaves the same fleet and the same next generation. Both hand over
the same messages, which welcome the agents promoted by the sweep, and count those that were queued. -/
theorem store_cannot_touch_fleet {ds : List Delivery} (hf : Reached ds f) (settings : SnapshotSettings)
    (generation : Nat) (now : Timestamp) {σ τ : Type} [ChunkStore σ] [ChunkStore τ] (store : σ)
    (store' : τ) (previous previous' : List String) (d d' : Dispatcher) :
    let e : Engine := ⟨settings, generation, previous⟩
    let e' : Engine := ⟨settings, generation, previous'⟩
    (∃ log, e.Runs f store d now log (e.cycle f store d now)) ∧
      (∃ log, e'.Runs f store' d' now log (e'.cycle f store' d' now)) ∧
      ∀ log c log' c', e.Runs f store d now log c → e'.Runs f store' d' now log' c' →
        c.fleet = c'.fleet ∧ c.engine.generation = generation + 1 ∧
          c'.engine.generation = generation + 1 ∧ log.map (·.1) = log'.map (·.1) ∧
          f.Welcomes log c ∧ f.Welcomes log' c' := by
  intro e e'
  refine ⟨e.exists_runs_cycle f store d now, e'.exists_runs_cycle f store' d' now, ?_⟩
  intro log c log' c' hruns hruns'
  exact ⟨hruns.fleet.trans hruns'.fleet.symm, hruns.generation, hruns'.generation,
    hruns.messages.trans hruns'.messages.symm, hf.coherent.welcomes hruns, hf.coherent.welcomes hruns'⟩

/-- One store holds a snapshot of old, the other one is down; one queue has room for a single message.
The agent that has reported is welcomed in either case. -/
theorem store_cannot_touch_fleet_down :
    let web : WorkloadDefinition := ⟨"web", "fleet", .ofImage "nginx"⟩
    let f := ((ofDefinitions [web] .epoch).consume (.ofName "edge-1") .epoch).2
    let e : Engine := ⟨⟨"fleet", .none, 100, ⟨2, 1, 0⟩, 60⟩, 5, ["4-0"]⟩
    let e' : Engine := ⟨⟨"fleet", .none, 100, ⟨2, 1, 0⟩, 60⟩, 5, []⟩
    let store := (ChunkStore.create MemoryStore.empty (.make "fleet" 4 0 1 [7])).2
    let c := e.cycle f store (.ofCapacity 10) .epoch
    let c' := e'.cycle f { MemoryStore.empty with isDown := true } (.ofCapacity 1) .epoch
    c.fleet = c'.fleet ∧ c.engine.generation = c'.engine.generation ∧
      (c.report.chunksWritten, c.report.chunksFailed) = (2, 0) ∧
      (c'.report.chunksWritten, c'.report.chunksFailed) = (0, 2) ∧
      (c.report.acksDispatched, c.report.commandsDispatched) = (1, 1) ∧
      (c'.report.acksDispatched, c'.report.commandsDispatched) = (1, 0) := by
  intro web f e e' store c c'
  have hreached : Reached [(.ofName "edge-1", .epoch)] f :=
    (Reached.start [web] .epoch).call (.consume (.ofName "edge-1") .epoch)
  obtain ⟨⟨log, hruns⟩, ⟨log', hruns'⟩, hsame⟩ := store_cannot_touch_fleet hreached e.settings 5
    .epoch store { MemoryStore.empty with isDown := true } ["4-0"] [] (.ofCapacity 10) (.ofCapacity 1)
  obtain ⟨hfleet, hgeneration, hgeneration', -⟩ := hsame log c log' c' hruns hruns'
  refine ⟨hfleet, hgeneration.trans hgeneration'.symm, ?_, ?_, ?_, ?_⟩
  · decide +kernel
  · decide +kernel
  · decide +kernel
  · decide +kernel

end Fleet

end EdgeFleet
