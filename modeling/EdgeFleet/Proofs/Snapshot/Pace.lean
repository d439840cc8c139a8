import EdgeFleet.Proofs.Snapshot.Loop

/-! # The pace of the loop

No two cycles overlap, none comes early, and each that has started is brought to its end, also when the loop
is told to stop in the middle of it. No other cycle starts then, unless it is due before this one is over.
-/

namespace EdgeFleet

variable {σ : Type}

namespace Loop

variable {period stop : Nat} {l l' : Loop σ}

/-! ## The cycles that were started -/

theorem getElem?_concat {α : Type} {as : List α} {a b : α} {i : Nat} (h : (as ++ [a])[i]? = some b) :
    as[i]? = some b ∨ i = as.length ∧ b = a := by
  rcases Nat.lt_trichotomy i as.length with hlt | rfl | hgt
  · exact .inl (List.getElem?_append_left hlt ▸ h)
  · rw [List.getElem?_concat_length] at h
    exact .inr ⟨rfl, (Option.some.inj h).symm⟩
  · rw [List.getElem?_eq_none (by rw [List.length_append, List.length_singleton]; exact hgt)] at h
    cases h

theorem getElem?_starts {l : Loop σ} {i : Nat} {s : Start σ} (h : l.starts[i]? = some s) :
    (∃ r, l.rounds[i]? = some r ∧ r.start = s) ∨ i = l.rounds.length ∧ s ∈ l.stage.start? := by
  rw [starts] at h
  rcases Nat.lt_or_ge i l.rounds.length with hlt | hge
  · rw [List.getElem?_append_left (by rwa [List.length_map]), List.getElem?_map,
      Option.map_eq_some_iff] at h
    exact .inl h
  · rw [List.getElem?_append_right (by rwa [List.length_map]), List.length_map] at h
    have hi := (List.getElem?_eq_some_iff.mp h).1
    have hlength : l.stage.start?.toList.length ≤ 1 := by cases l.stage.start? <;> simp
    obtain rfl : i = l.rounds.length := by omega
    exact .inr ⟨rfl, Option.mem_toList.mp (List.mem_of_getElem? h)⟩

theorem mem_starts {l : Loop σ} {s : Start σ} :
    s ∈ l.starts ↔ (∃ r ∈ l.rounds, r.start = s) ∨ s ∈ l.stage.start? := by
  simp [starts]

/-! ## The clock -/

/-- A cycle was under way when the loop was told to stop, and was not over when the next one was due. -/
def Overrun (period stop : Nat) (rounds : List (Round σ)) : Prop :=
  ∃ r ∈ rounds, r.start.started ≤ stop ∧ stop < r.ended ∧ r.start.pace.tick + period ≤ r.ended

theorem Overrun.concat {rounds : List (Round σ)} (h : Overrun period stop rounds) (r : Round σ) :
    Overrun period stop (rounds ++ [r]) := by
  obtain ⟨r', hr', hrest⟩ := h
  exact ⟨r', List.mem_append_left _ hr', hrest⟩

/-- What the clock tells of the cycles that are over, and of the one under way. -/
structure Clock (period stop : Nat) (l : Loop σ) : Prop where
  pace : l.pace.period = period
  due : (l.rounds.length + 1) * period ≤ l.pace.due
  ended : ∀ r ∈ l.rounds, r.ended ≤ l.pace.ended
  last : l.pace.ended = 0 ∨
    ∃ r ∈ l.rounds, r.ended = l.pace.ended ∧ r.start.pace.tick + period = l.pace.due
  current : ∀ s ∈ l.stage.start?, s.pace = l.pace ∧ l.pace.next ≤ max stop l.pace.ended
  apart : l.rounds.Pairwise fun r r' => r.ended ≤ r'.start.started
  late : ∀ i r, l.rounds[i]? = some r → (i + 1) * period ≤ r.start.started
  stopped : ∀ r ∈ l.rounds, stop < r.start.started → Overrun period stop l.rounds
  returned : ∀ time, l.stage = .returned time → stop ≤ time ∧ l.pace.ended ≤ time

namespace Clock

theorem start (c : Controller σ) (period stop : Nat) : (Loop.start c period).Clock period stop where
  pace := rfl
  due := by simp [Loop.start, Pace.start]
  ended _ hr := (List.not_mem_nil hr).elim
  last := .inl rfl
  current _ hs := by cases hs
  apart := .nil
  late _ _ hi := by cases hi
  stopped _ hr := (List.not_mem_nil hr).elim
  returned _ htime := by cases htime

theorem started_of_current (h : l.Clock period stop) {s : Start σ} (hs : s ∈ l.stage.start?) :
    s.started = l.pace.next := by
  rw [Start.started, (h.current s hs).1]

/-- Starting after the end, the cycle under way was due before the last one was over. -/
theorem overrun_of_current (h : l.Clock period stop) {s : Start σ} (hs : s ∈ l.stage.start?)
    (hstop : stop < s.started) : Overrun period stop l.rounds := by
  have hnext := (h.current s hs).2
  rw [h.started_of_current hs] at hstop
  rcases h.last with hnone | ⟨r, hr, hended, hdue⟩
  · omega
  -- The last cycle is the overrun one, or has itself started after the end.
  · by_cases hbefore : r.start.started ≤ stop
    · have hle : l.pace.due ≤ l.pace.next := Nat.le_max_left _ _
      exact ⟨r, hr, hbefore, by omega, by omega⟩
    · exact h.stopped r hr (Nat.lt_of_not_le hbefore)

theorem finish (h : l.Clock period stop) {r : Round σ} (hr : l.stage.start? = some r.start)
    (c : Controller σ) :
    Clock period stop ⟨l.pace.advance r.cycle.report.elapsed, c, .waiting, l.rounds ++ [r]⟩ := by
  have hstarted : r.start.started = l.pace.next := h.started_of_current hr
  have hpace : r.start.pace = l.pace := (h.current _ hr).1
  have hended : r.ended = l.pace.next + r.cycle.report.elapsed := by rw [Round.ended, hstarted]
  have hover : l.pace.ended ≤ l.pace.next := Nat.le_max_right _ _
  have hdue : l.pace.due ≤ l.pace.next := Nat.le_max_left _ _
  refine ⟨h.pace, ?_, fun r' hr' => ?_, .inr ⟨r, ?_, ?_, ?_⟩, fun _ hs => ?_, ?_, fun i r' hi => ?_,
    fun r' hr' hstop => ?_, fun _ htime => ?_⟩
  · have htick := l.pace.due_le_tick
    have hbefore := h.due
    rw [List.length_append, List.length_singleton, Pace.due_advance, h.pace, Nat.succ_mul]
    omega
  · rw [Pace.ended_advance]
    rcases List.mem_append.mp hr' with hr' | hr'
    · have := h.ended r' hr'
      omega
    · rw [List.mem_singleton.mp hr', hended]
  · exact List.mem_append_right _ (List.mem_singleton_self r)
  · exact hended
  · rw [hpace, Pace.due_advance, h.pace]
  · cases hs
  · refine List.pairwise_append.mpr ⟨h.apart, List.pairwise_singleton _ _, fun r₁ hr₁ r₂ hr₂ => ?_⟩
    rw [List.mem_singleton.mp hr₂, hstarted]
    exact (h.ended r₁ hr₁).trans hover
  · rcases getElem?_concat hi with hi | ⟨rfl, rfl⟩
    · exact h.late i r' hi
    · rw [hstarted]
      exact h.due.trans hdue
  · rcases List.mem_append.mp hr' with hr' | hr'
    · exact (h.stopped r' hr' hstop).concat r
    · rw [List.mem_singleton.mp hr'] at hstop
      exact (h.overrun_of_current hr hstop).concat r
  · cases htime

/-! ### Starts -/

theorem ended_le_started (h : l.Clock period stop) {i j : Nat} {r : Round σ} {s : Start σ} (hij : i < j)
    (hr : l.rounds[i]? = some r) (hs : l.starts[j]? = some s) : r.ended ≤ s.started := by
  rcases getElem?_starts hs with ⟨r', hr', rfl⟩ | ⟨-, hs⟩
  · obtain ⟨hi, rfl⟩ := List.getElem?_eq_some_iff.mp hr
    obtain ⟨hj, rfl⟩ := List.getElem?_eq_some_iff.mp hr'
    exact List.pairwise_iff_getElem.mp h.apart i j hi hj hij
  · rw [h.started_of_current hs]
    exact (h.ended r (List.mem_of_getElem? hr)).trans (Nat.le_max_right _ _)

theorem le_started (h : l.Clock period stop) {i : Nat} {s : Start σ} (hs : l.starts[i]? = some s) :
    (i + 1) * period ≤ s.started := by
  rcases getElem?_starts hs with ⟨r, hr, rfl⟩ | ⟨rfl, hcurrent⟩
  · exact h.late i r hr
  · rw [h.started_of_current hcurrent]
    exact h.due.trans (Nat.le_max_left _ _)

theorem overrun (h : l.Clock period stop) {s : Start σ} (hs : s ∈ l.starts) (hstop : stop < s.started) :
    Overrun period stop l.rounds := by
  rcases mem_starts.mp hs with ⟨r, hr, rfl⟩ | hs
  · exact h.stopped r hr hstop
  · exact h.overrun_of_current hs hstop

end Clock

/-! ## Along the steps -/

variable [ChunkStore σ] {c₀ : Controller σ}

theorem Clock.step (h : l.Clock period stop) (hstep : Step stop l l') : l'.Clock period stop := by
  cases hstep with
  | other _ =>
      exact
        { h with
          current := fun s hs => h.current s (by simpa using hs)
          returned := fun time htime => h.returned time (Stage.withDispatcher_eq_returned htime) }
  | begin hwaiting hpace _ hdue =>
      refine { h with current := fun s' hs' => ?_, returned := fun _ htime => ?_ }
      · obtain rfl := Option.some.inj hs'
        exact ⟨hpace, hdue⟩
      · cases htime
  | work hworks =>
      exact
        { h with
          current := fun s hs => h.current s (hworks.start? ▸ hs)
          returned := fun time htime => absurd htime (hworks.ne_returned time) }
  | finish hstage _ => exact h.finish (by rw [hstage]; rfl) _
  | leave _ _ =>
      refine { h with current := fun _ hs => ?_, returned := fun time htime => ?_ }
      · cases hs
      obtain rfl := Stage.returned.inj htime
      exact ⟨Nat.le_max_left _ _, Nat.le_max_right _ _⟩

theorem Clock.of_reached (h : Reached c₀ period stop l) : l.Clock period stop := by
  induction h with
  | refl => exact .start c₀ period stop
  | tail _ hstep ih => exact ih.step hstep

/-! ## The work of a cycle -/

/-- The messages handed over so far: those for the agents whose turn has come, each as the fleet was then, less
the commands that are left. -/
structure Greets (acks : List Ack) (w : Welcoming) (fleets : List Fleet) : Prop where
  messages : ∃ greeted, greeted ++ w.acks = acks ∧ greeted.length = fleets.length ∧
    w.log.map (·.1) ++ w.commands.map (.command w.agent) =
      (greeted.zip fleets).flatMap fun p => Welcoming.handoutsFor p.2 p.1
  acked : w.counts.1 = Handout.acked w.log
  commanded : w.counts.2 = Handout.commanded w.log
  passed : ∃ d₀ : Dispatcher, d₀.Passes w.log w.dispatcher

theorem Greets.start (acks : List Ack) (d : Dispatcher) : Greets acks (.start acks d) [] :=
  ⟨⟨[], rfl, rfl, rfl⟩, rfl, rfl, d, .refl⟩

/-- Others may use the queue meanwhile. -/
theorem Greets.stirs {acks : List Ack} {w : Welcoming} {fleets : List Fleet} (h : Greets acks w fleets)
    {d : Dispatcher} (hstirs : w.dispatcher.Stirs d) : Greets acks { w with dispatcher := d } fleets := by
  obtain ⟨d₀, hpasses⟩ := h.passed
  exact ⟨h.messages, h.acked, h.commanded, d₀, hpasses.stirs hstirs⟩

theorem Greets.step {acks : List Ack} {w w' : Welcoming} {fleets : List Fleet} (h : Greets acks w fleets)
    {f : Fleet} (hstep : Welcoming.Step f w w') :
    Greets acks w' (fleets ++ List.replicate (w.acks.length - w'.acks.length) f) := by
  obtain ⟨⟨greeted, hacks, hlength, hmessages⟩, hacked, hcommanded, d₀, hpasses⟩ := h
  have htallies : w'.Tallies f (w.log.map (·.1) ++ w.pending f) :=
    Welcoming.Tallies.step ⟨rfl, hacked, hcommanded⟩ hstep
  refine ⟨?_, htallies.acked, htallies.commanded, d₀, hpasses.step hstep⟩
  cases hstep with
  | stir _ =>
      refine ⟨greeted, hacks, by simpa using hlength, ?_⟩
      simpa using hmessages
  | @command c cs hcs queued _ _ =>
      refine ⟨greeted, hacks, by simpa using hlength, ?_⟩
      rw [hcs] at hmessages
      simpa using hmessages
  | @ack a as hcs has queued _ _ =>
      refine ⟨greeted ++ [a], by simp [← hacks, has], by simp [hlength, has], ?_⟩
      rw [hcs, List.map_nil, List.append_nil] at hmessages
      have hone : List.replicate ((a :: as).length - as.length) f = [f] := by simp
      rw [has, hone, List.zip_append hlength, List.flatMap_append, ← hmessages]
      simp [Welcoming.handoutsFor]

/-- The cycle under way has done what its stage says. -/
def Stage.Sound : Stage σ → Prop
  | .waiting | .returned _ => True
  | .deleting s t => s.Deletes t
  | .creating s deletes t => (s.Deletes deletes ∧ deletes.batch.running = []) ∧ s.Creates deletes t
  | .welcoming s deletes creates w fleets =>
    (s.Deletes deletes ∧ deletes.batch.running = []) ∧
      (s.Creates deletes creates ∧ creates.batch.running = []) ∧ Greets s.sweep.1.acks w fleets

theorem Stage.Sound.withDispatcher {stage : Stage σ} (h : stage.Sound) {d d' : Dispatcher}
    (hd : d = stage.dispatcher?.getD d) (hstirs : d.Stirs d') : (stage.withDispatcher d').Sound := by
  cases stage with
  | waiting | returned _ => trivial
  | deleting s t | creating s deletes t => exact h
  | welcoming s deletes creates w fleets =>
      obtain rfl : d = w.dispatcher := hd
      exact ⟨h.1, h.2.1, h.2.2.stirs hstirs⟩

theorem Stage.Works.sound {c : Controller σ} {stage stage' : Stage σ} (h : stage.Works c stage')
    (hsound : stage.Sound) : stage'.Sound := by
  cases h with
  | delete hstep => exact hsound.tail hstep
  | turn hdone => exact ⟨⟨hsound, hdone⟩, .refl⟩
  | create hstep => exact ⟨hsound.1, hsound.2.tail hstep⟩
  | greet hdone => exact ⟨hsound.1, ⟨hsound.2, hdone⟩, .start ..⟩
  | welcome hstep => exact ⟨hsound.1, hsound.2.1, hsound.2.2.step hstep⟩

/-- All of the cycle has been done: every chunk of old was deleted and every new one created with all the
tries that it may have, the agents that the sweep promoted were welcomed, and the next generation is due. -/
structure Round.IsComplete (r : Round σ) : Prop where
  deleted : r.deletes.WorksOff r.start.effort r.start.engine.previous
  created : r.creates.WorksOff r.start.effort r.start.chunks
  cycles : r.start.engine.Cycles r.start.controller.fleet r.start.controller.store
    r.start.controller.dispatcher r.start.time r.stored
  greeted : r.fleets.length = r.start.sweep.1.acks.length
  handed : r.welcoming.log.map (·.1) =
    (r.start.sweep.1.acks.zip r.fleets).flatMap fun p => Welcoming.handoutsFor p.2 p.1
  /-- The queue took what it had room for, when it was handed over. -/
  passed : ∃ d₀ : Dispatcher, d₀.Passes r.welcoming.log r.cycle.dispatcher
  acked : r.cycle.report.acksDispatched = Handout.acked r.welcoming.log
  commanded : r.cycle.report.commandsDispatched = Handout.commanded r.welcoming.log
  advanced : r.cycle.engine.generation = r.start.engine.generation + 1

theorem Stage.Sound.isComplete {r : Round σ}
    (h : Stage.Sound (.welcoming r.start r.deletes r.creates r.welcoming r.fleets))
    (hover : r.welcoming.isOver) : r.IsComplete := by
  obtain ⟨⟨hdeletes, hdeleted⟩, ⟨hcreates, hcreated⟩, ⟨greeted, hacks, hlength, hmessages⟩, hacked,
    hcommanded, hpassed⟩ := h
  rw [hover.1, List.append_nil] at hacks
  rw [hover.2, List.map_nil, List.append_nil] at hmessages
  subst hacks
  exact
    { deleted := hdeletes.worksOff hdeleted
      created := hcreates.worksOff hcreated
      cycles := .of_steps hdeletes.steps hdeleted hcreates.steps hcreated
      greeted := hlength.symm
      handed := hmessages
      passed := hpassed
      acked := hacked
      commanded := hcommanded
      advanced := rfl }

/-- The cycles that are over are complete, and the one under way has done its part. -/
structure Sound (l : Loop σ) : Prop where
  stage : l.stage.Sound
  rounds : ∀ r ∈ l.rounds, r.IsComplete

theorem Sound.step (h : l.Sound) (hstep : Step stop l l') : l'.Sound := by
  cases hstep with
  | other hmoves => exact ⟨h.stage.withDispatcher l.current_dispatcher hmoves.beside.dispatcher, h.rounds⟩
  | begin _ _ _ _ => exact ⟨.refl, h.rounds⟩
  | work hworks => exact ⟨hworks.sound h.stage, h.rounds⟩
  | finish hstage hover =>
      have hcomplete := Stage.Sound.isComplete (hstage ▸ h.stage) hover
      refine ⟨trivial, fun r hr => ?_⟩
      rcases List.mem_append.mp hr with hr | hr
      · exact h.rounds r hr
      · rw [List.mem_singleton.mp hr]
        exact hcomplete
  | leave _ _ => exact ⟨trivial, h.rounds⟩

theorem Sound.of_reached (h : Reached c₀ period stop l) : l.Sound := by
  induction h with
  | refl => exact ⟨trivial, fun _ hr => (List.not_mem_nil hr).elim⟩
  | tail _ hstep ih => exact ih.step hstep

/-! ## From cycle to cycle -/

/-- What the store holds after some cycles. -/
def storeAfter (c₀ : Controller σ) (rounds : List (Round σ)) : σ :=
  (rounds.getLast?.map (·.cycle.store)).getD c₀.store

def engineAfter (c₀ : Controller σ) (rounds : List (Round σ)) : Engine :=
  (rounds.getLast?.map (·.cycle.engine)).getD c₀.engine

/-- The sweep that a cycle starts with. -/
def Start.sweeps (s : Start σ) : Nat × Timestamp :=
  (s.engine.settings.heartbeatTimeout * 1000000000, s.time)

/-- Each cycle goes on with the store and the engine that the last one has left. The fleet has taken a sweep for
each cycle that was started, and otherwise reports and changes of its definitions. -/
structure Records (c₀ : Controller σ) (l : Loop σ) : Prop where
  current : ∀ s ∈ l.stage.start?, s.controller.store = l.controller.store ∧ s.engine = l.controller.engine
  store : l.controller.store = storeAfter c₀ l.rounds
  engine : l.controller.engine = engineAfter c₀ l.rounds
  linked : ∀ i r, l.rounds[i]? = some r →
    r.start.controller.store = storeAfter c₀ (l.rounds.take i) ∧ r.start.engine = engineAfter c₀ (l.rounds.take i)
  swept : ∃ es, l.controller.fleet = c₀.fleet.afterAll es ∧
    es.filterMap Fleet.Event.sweep? = l.starts.map Start.sweeps
  generation : l.controller.engine.generation = c₀.engine.generation + l.rounds.length
  numbered : ∀ i r, l.rounds[i]? = some r → r.cycle.report.generation = c₀.engine.generation + i
  health : l.controller.health.lastSnapshot =
    (l.rounds.getLast?.map (·.cycle.report)).or c₀.health.lastSnapshot

theorem afterAll_append (f : Fleet) (es es' : List Fleet.Event) :
    f.afterAll (es ++ es') = (f.afterAll es).afterAll es' :=
  List.foldl_append ..

omit [ChunkStore σ] in
theorem Records.other (h : l.Records c₀) {c : Controller σ} (hmoves : l.current.Moves c) :
    Records c₀ { l with controller := c, stage := l.stage.withDispatcher c.dispatcher } := by
  obtain ⟨hengine, hstore, hhealth, ⟨es, hfleet, hnone⟩, -⟩ := hmoves.beside
  obtain ⟨es₀, hbefore, hsweeps⟩ := h.swept
  refine
    { current := fun s hs => ?_
      store := hstore.trans h.store
      engine := hengine.trans h.engine
      linked := h.linked
      swept := ⟨es₀ ++ es, ?_, ?_⟩
      generation := (congrArg _ hengine).trans h.generation
      numbered := h.numbered
      health := hhealth.trans h.health }
  · obtain ⟨hstore', hengine'⟩ := h.current s (by simpa using hs)
    exact ⟨hstore'.trans hstore.symm, hengine'.trans hengine.symm⟩
  · rw [afterAll_append, ← hbefore]
    exact hfleet
  · rw [List.filterMap_append, hnone, List.append_nil, hsweeps, starts, starts, Stage.start?_withDispatcher]

omit [ChunkStore σ] in
theorem Records.begin (h : l.Records c₀) {s : Start σ} (hwaiting : l.stage = .waiting)
    (hcontroller : s.controller = l.controller) :
    Records c₀
      { l with
        controller := { l.controller with fleet := s.sweep.2 }
        stage := .deleting s (.start s.effort s.controller.store s.engine.previous) } := by
  obtain ⟨es, hbefore, hsweeps⟩ := h.swept
  refine { h with current := fun s' hs' => ?_, swept := ⟨es ++ [.sweep s.sweeps.1 s.sweeps.2], ?_, ?_⟩ }
  · obtain rfl := Option.some.inj hs'
    rw [Start.engine, hcontroller]
    exact ⟨rfl, rfl⟩
  · rw [afterAll_append, ← hbefore, ← hcontroller]
    rfl
  · rw [starts, hwaiting] at hsweeps
    rw [List.filterMap_append, hsweeps]
    simp [starts, Stage.start?, Fleet.Event.sweep?]

omit [ChunkStore σ] in
theorem Records.finish (h : l.Records c₀) {r : Round σ} {fleets : List Fleet}
    (hstage : l.stage = .welcoming r.start r.deletes r.creates r.welcoming fleets) :
    Records c₀ ⟨l.pace.advance r.cycle.report.elapsed, after l.controller r, .waiting, l.rounds ++ [r]⟩ := by
  obtain ⟨hstore, hengine⟩ := h.current r.start (by rw [hstage]; rfl)
  have hgeneration : r.start.engine.generation = c₀.engine.generation + l.rounds.length := by
    rw [hengine, h.generation]
  obtain ⟨es, hfleet, hsweeps⟩ := h.swept
  refine ⟨fun _ hs => ?_, by simp [after, storeAfter], by simp [after, engineAfter], fun i r' hi => ?_,
    ⟨es, hfleet, ?_⟩, ?_, fun i r' hi => ?_, by simp [after]⟩
  · cases hs
  · rcases getElem?_concat hi with hi' | ⟨rfl, rfl⟩
    · have hlt := (List.getElem?_eq_some_iff.mp hi').1
      rw [List.take_append_of_le_length (Nat.le_of_lt hlt)]
      exact h.linked i r' hi'
    · rw [List.take_left, hstore, hengine]
      exact ⟨h.store, h.engine⟩
  · rw [hsweeps, starts, hstage]
    simp [starts, Stage.start?]
  · rw [List.length_append, List.length_singleton, ← Nat.add_assoc, ← hgeneration]
    rfl
  · rcases getElem?_concat hi with hi | ⟨rfl, rfl⟩
    · exact h.numbered i r' hi
    · exact hgeneration

theorem Records.step (h : l.Records c₀) (hstep : Step stop l l') : l'.Records c₀ := by
  cases hstep with
  | other hmoves => exact h.other hmoves
  | begin hwaiting _ hcontroller _ => exact h.begin hwaiting hcontroller
  | work hworks =>
      obtain ⟨es, hfleet, hsweeps⟩ := h.swept
      refine { h with current := fun s hs => h.current s (hworks.start? ▸ hs), swept := ⟨es, hfleet, ?_⟩ }
      rw [hsweeps, starts, starts, hworks.start?]
  | finish hstage _ => exact h.finish hstage
  | leave hwaiting _ =>
      obtain ⟨es, hfleet, hsweeps⟩ := h.swept
      refine { h with current := fun _ hs => ?_, swept := ⟨es, hfleet, ?_⟩ }
      · cases hs
      · rw [hsweeps, starts, starts, hwaiting]
        rfl

theorem Records.of_reached (h : Reached c₀ period stop l) : l.Records c₀ := by
  induction h with
  | refl =>
      refine ⟨fun _ hs => ?_, rfl, rfl, fun _ _ hi => ?_, ⟨[], rfl, rfl⟩, rfl, fun _ _ hi => ?_, rfl⟩
      · cases hs
      · cases hi
      · cases hi
  | tail _ hstep ih => exact ih.step hstep

/-- Wherever the loop is, it can go on until it returns. -/
theorem exists_steps_returned (hperiod : 0 < period) (h : Reached c₀ period stop l) :
    ∃ l' time, Steps stop l l' ∧ l'.stage = .returned time := by
  have hpace : 0 < l.pace.period := (Clock.of_reached h).pace ▸ hperiod
  have hsound := (Sound.of_reached h).stage
  have hgoOn : ∀ {duration c' rounds'}, Steps stop l ⟨l.pace.advance duration, c', .waiting, rounds'⟩ →
      ∃ l' time, Steps stop l l' ∧ l'.stage = .returned time := by
    intro duration c' rounds' hcycle
    obtain ⟨l', time, hrest, hreturned⟩ :=
      exists_steps_of_waiting stop (l.pace.advance duration) c' rounds' hpace
    exact ⟨l', time, hcycle.trans hrest, hreturned⟩
  obtain ⟨p, c, stage, rounds⟩ := l
  cases stage with
  | waiting => exact exists_steps_of_waiting stop p c rounds hpace
  | returned time => exact ⟨_, time, .refl, rfl⟩
  | deleting s t =>
      obtain ⟨_, _, _, hcycle⟩ := exists_steps_of_deleting stop hsound
      exact hgoOn hcycle
  | creating s deletes t =>
      obtain ⟨_, _, _, hcycle⟩ := exists_steps_of_creating stop hsound.2
      exact hgoOn hcycle
  | welcoming s deletes creates w fleets =>
      obtain ⟨_, _, _, hcycle⟩ := exists_steps_of_welcoming stop deletes creates w fleets
      exact hgoOn hcycle

/-! ## Keeping the pace -/

/-- What holds of a loop at any time, whatever fails and however long the cycles are. -/
structure KeepsPace (c₀ : Controller σ) (period stop : Nat) (l : Loop σ) : Prop where
  /-- No cycle starts before those started earlier are over. -/
  apart : ∀ (i j : Nat) (r : Round σ) (s : Start σ), i < j → l.rounds[i]? = some r →
    l.starts[j]? = some s → r.ended ≤ s.started
  /-- No cycle comes early. -/
  late : ∀ i s, l.starts[i]? = some s → (i + 1) * period ≤ s.started
  /-- The periods count from the starts, up to the tolerance. -/
  ticks : ∀ s ∈ l.starts, s.pace.tick ≤ s.started ∧ s.started ≤ s.pace.tick + Pace.tolerance
  /-- A cycle starts after the end only if the one under way then was not over within its period. -/
  stopped : ∀ s ∈ l.starts, stop < s.started → Overrun period stop l.rounds
  complete : ∀ r ∈ l.rounds, r.IsComplete
  records : l.Records c₀
  /-- The loop returns when it has been told to stop and all cycles that were started are over. -/
  returned : ∀ time, l.stage = .returned time →
    stop ≤ time ∧ l.starts = l.rounds.map (·.start) ∧ ∀ r ∈ l.rounds, r.ended ≤ time

theorem KeepsPace.of_reached (h : Reached c₀ period stop l) : l.KeepsPace c₀ period stop := by
  have hclock := Clock.of_reached h
  exact
    { apart := fun _ _ _ _ => hclock.ended_le_started
      late := fun _ _ => hclock.le_started
      ticks := fun s _ => ⟨s.pace.tick_le_next, s.pace.next_le_tick⟩
      stopped := fun _ => hclock.overrun
      complete := (Sound.of_reached h).rounds
      records := .of_reached h
      returned := fun time htime => by
        obtain ⟨hstop, hended⟩ := hclock.returned time htime
        refine ⟨hstop, ?_, fun r hr => (hclock.ended r hr).trans hended⟩
        rw [starts, htime]
        exact List.append_nil _ }

end Loop

/-- Whatever fails, however long the cycles are and whenever it is told to stop: at any time the loop keeps its
pace, and it can go on until it returns. Run without interruption, the loop of the controller is one of its
runs, in which each cycle is the engine's own and goes on with the fleet, the store and the queue of the last one;
and whenever a cycle is due, the cycle of the controller is a way on. -/
theorem Controller.loop_keeps_pace [ChunkStore σ] (c₀ : Controller σ) {period : Nat} (hperiod : 0 < period)
    (stop : Nat) :
    (∀ l, Loop.Reached c₀ period stop l → l.KeepsPace c₀ period stop ∧
      ∃ l' time, Loop.Steps stop l l' ∧ l'.stage = .returned time) ∧
    (∀ accepts now, ∃ l time, Loop.Reached c₀ period stop l ∧ l.stage = .returned time ∧
      l.controller = (c₀.loop accepts period stop now).2 ∧
      Loop.Uninterrupted accepts now c₀ l.rounds l.controller ∧
      (c₀.loop accepts period stop now).1 = l.rounds.flatMap fun r => (r.cycle.dispatcher.settle accepts).1) ∧
    ∀ (p : Pace) (c : Controller σ) (rounds : List (Loop.Round σ)) (now : Timestamp),
      p.next ≤ max stop p.ended → ∃ r : Loop.Round σ,
        r.start = ⟨p, c, now⟩ ∧ r.cycle = c.engine.cycle c.fleet c.store c.dispatcher now ∧
          (c.cycle now).2 = Loop.after { c with fleet := r.cycle.fleet } r ∧
          Loop.Steps stop ⟨p, c, .waiting, rounds⟩
            ⟨p.advance r.cycle.report.elapsed, (c.cycle now).2, .waiting, rounds ++ [r]⟩ := by
  refine ⟨fun l h => ⟨.of_reached h, Loop.exists_steps_returned hperiod h⟩, fun accepts now => ?_,
    fun p c rounds now hdue => Loop.exists_steps_cycle stop p c rounds hdue now⟩
  rw [loop, Nat.max_eq_right hperiod]
  obtain ⟨l, time, more, hsteps, hreturned, hrounds, hcontroller, hmore, hpublished⟩ :=
    Loop.exists_steps_loopFor accepts now (.start period) c₀ [] hperiod (Nat.le_add_left _ _)
  rw [List.nil_append] at hrounds
  subst hrounds
  exact ⟨l, time, hsteps, hreturned, hcontroller, hmore, hpublished⟩

/-- The first creation fails and is put off for longer than the period; the loop is told to stop meanwhile. It
returns after that cycle, or after more of them: the next one is due before the first is over. -/
theorem Controller.loop_keeps_pace_overrun :
    let fleet : Fleet := ((default : Fleet).consume (.ofName "edge-1") .epoch).2
    let c : Controller MemoryStore := .start fleet { MemoryStore.empty with failCreates := 1 }
      ⟨"fleet", .none, 1000, ⟨1, 2, 25⟩, 60⟩ 10
    0 < 10 ∧
    (∃ l time, Loop.Reached c 10 20 l ∧ l.stage = .returned time ∧ l.KeepsPace c 10 20 ∧ l.rounds.length = 1 ∧
      l.controller = (c.loop (fun _ => true) 10 20 .epoch).2 ∧
      (l.controller.store.inNamespace "fleet").keys = ["0-0"] ∧ l.controller.dispatcher.stats.published = 1 ∧
      l.controller.fleet.registry.stateOf? "edge-1" = some .registered ∧
      (l.controller.health.lastSnapshot.map fun r => (r.chunksWritten, r.acksDispatched, r.elapsed)) =
        some (1, 1, 25)) ∧
    ∃ l, Loop.Reached c 10 20 l ∧ l.KeepsPace c 10 20 ∧ ∃ s ∈ l.starts, 20 < s.started := by
  intro fleet c
  obtain ⟨hkeeps, hloop, hcycles⟩ := loop_keeps_pace c (by decide : 0 < 10) 20
  refine ⟨by decide, ?_, ?_⟩
  · obtain ⟨l, time, hreached, hreturned, hcontroller, -, -⟩ := hloop (fun _ => true) .epoch
    have hpace := (hkeeps l hreached).1
    have hgeneration : l.controller.engine.generation = 1 := by
      rw [hcontroller]
      decide +kernel
    refine ⟨l, time, hreached, hreturned, hpace, ?_, hcontroller, ?_, ?_, ?_, ?_⟩
    · have hlength := hpace.records.generation
      rw [hgeneration] at hlength
      exact (Nat.zero_add _).symm.trans hlength.symm
    all_goals
      rw [hcontroller]
      decide +kernel
  · obtain ⟨r, hstart, hrun, -, hcycle⟩ := hcycles (.start 10) c [] .epoch (by decide)
    have helapsed : r.cycle.report.elapsed = 25 := by
      rw [hrun]
      decide +kernel
    rw [helapsed] at hcycle
    let s : Loop.Start MemoryStore := ⟨.advance (.start 10) 25, (c.cycle .epoch).2, .epoch⟩
    have hdue : s.pace.next ≤ max 20 s.pace.ended := by decide
    have hlate : 20 < s.started := by decide
    have hreached := hcycle.tail (.begin (s := s) rfl rfl rfl hdue)
    exact ⟨_, hreached, (hkeeps _ hreached).1, s, Loop.mem_starts.mpr (.inr rfl), hlate⟩

end EdgeFleet
