import EdgeFleet.Dispatch
import Mathlib.Data.List.Perm.Basic

/-! # Workers at a queue

Producers hand messages over, and several workers bring them out: each takes the oldest message, hands it to the
broker, and takes the next one when the broker has answered. A producer first puts its message into the queue and
counts it after that; a step of another producer or of a worker may come between any two steps. Nothing is lost on
the way, and the counts tell where everything is.
-/

namespace EdgeFleet

/-! ## Single calls -/

namespace Dispatcher

variable {m : Message}

/-- A message is refused by a queue that is full or closed, and by no other. -/
theorem send_eq_false_iff (d : Dispatcher) (m : Message) :
    (d.send m).1 = false ↔ d.isClosed = true ∨ d.capacity ≤ d.queue.length := by
  unfold send
  split
  · next hrefused => exact iff_of_true rfl hrefused
  · next hroom => exact iff_of_false (by simp) hroom

/-- Only a message that is not refused waits, behind all others. -/
theorem queue_send (d : Dispatcher) (m : Message) :
    (d.send m).2.queue = d.queue ++ if (d.send m).1 then [m] else [] := by
  unfold send
  split
  · exact (List.append_nil _).symm
  · rfl

theorem send_same (d : Dispatcher) (m : Message) :
    (d.send m).2.capacity = d.capacity ∧ (d.send m).2.taken = d.taken ∧
      (d.send m).2.isClosed = d.isClosed ∧ (d.send m).2.stats = d.stats := by
  unfold send
  split <;> exact ⟨rfl, rfl, rfl, rfl⟩

theorem length_queue_send_le {d : Dispatcher} (h : d.queue.length ≤ d.capacity) (m : Message) :
    (d.send m).2.queue.length ≤ d.capacity := by
  rw [queue_send]
  cases hqueued : (d.send m).1 with
  | false => simpa using h
  | true =>
      have hroom := mt (send_eq_false_iff d m).mpr (by simp [hqueued])
      simp only [not_or, Nat.not_le] at hroom
      simpa using Nat.succ_le_of_lt hroom.2

theorem stats_count (d : Dispatcher) (queued : Bool) : (d.count queued).stats =
    { d.stats with
      queued := d.stats.queued + queued.toNat
      dropped := d.stats.dropped + (!queued).toNat } := by
  cases queued <;> rfl

theorem count_same (d : Dispatcher) (queued : Bool) :
    (d.count queued).capacity = d.capacity ∧ (d.count queued).queue = d.queue ∧
      (d.count queued).taken = d.taken ∧ (d.count queued).isClosed = d.isClosed := by
  cases queued <;> exact ⟨rfl, rfl, rfl, rfl⟩

theorem take?_eq_some {d d' : Dispatcher} : d.take? = some (m, d') ↔
    d.queue = m :: d'.queue ∧ d' = { d with queue := d'.queue, taken := d.taken ++ [m] } := by
  unfold take?
  split
  · next hnil => simp [hnil]
  · next m' queue hcons =>
    rw [hcons, Option.some.injEq, Prod.mk.injEq, List.cons.injEq]
    constructor
    · rintro ⟨rfl, rfl⟩
      exact ⟨⟨rfl, rfl⟩, rfl⟩
    · rintro ⟨⟨rfl, hqueue⟩, hd⟩
      refine ⟨rfl, ?_⟩
      rw [hd, hqueue]

end Dispatcher

/-! ## Steps -/

/-- A queue and its workers. -/
structure Crew where
  dispatcher : Dispatcher
  /-- For each worker the message that it is bringing out, if any. -/
  hands : List (Option Message)
  /-- The calls of producers that have not counted their message yet, each with whether it was put into the queue. -/
  calls : List (Message × Bool)

namespace Crew

/-- There is at least one worker. -/
def start (capacity workers : Nat) : Crew :=
  ⟨.ofCapacity capacity, List.replicate (max 1 workers) none, []⟩

/-- What the worker at a position is bringing out. -/
def held (s : Crew) (k : Nat) : Option Message := s.hands[k]?.join

def isIdle (s : Crew) : Prop := ∀ k, s.held k = none

/-- The messages that are in the queue, or were, and that their producers have not counted yet. -/
def uncounted (s : Crew) : Nat := s.calls.countP (·.2)

/-- What has happened, with what came out of it. -/
inductive Event where
  | sent (m : Message) (queued : Bool)
  /-- The message is counted, and the producer learns whether it is queued. -/
  | answered (m : Message) (queued : Bool)
  | took (worker : Nat) (m : Message)
  | ended (worker : Nat) (m : Message) (published : Bool)
  | closed

namespace Event

def sent? : Event → Option (Message × Bool)
  | sent m queued => some (m, queued)
  | _ => none

def answered? : Event → Option (Message × Bool)
  | answered m queued => some (m, queued)
  | _ => none

/-- The message that was put into the queue. -/
def queued? : Event → Option Message
  | sent m true => some m
  | _ => none

/-- The message that was taken, by whichever worker. -/
def taken? : Event → Option Message
  | took _ m => some m
  | _ => none

def takenBy? (k : Nat) : Event → Option Message
  | took k' m => if k' = k then some m else none
  | _ => none

/-- The message that the worker has brought out or failed to bring out. -/
def endedBy? (k : Nat) : Event → Option Message
  | ended k' m _ => if k' = k then some m else none
  | _ => none

def isEnd (published : Bool) : Event → Bool
  | ended _ _ p => p = published
  | _ => false

def isClose : Event → Bool
  | closed => true
  | _ => false

end Event

/-- One step of a producer's call, or of a worker. How long the broker takes for a message, and whether it accepts
it, is open. -/
inductive Step (s : Crew) : Event → Crew → Prop
  | send (m : Message) :
      Step s (.sent m (s.dispatcher.send m).1)
        { s with dispatcher := (s.dispatcher.send m).2, calls := s.calls ++ [(m, (s.dispatcher.send m).1)] }
  | count {k m q} (hcall : s.calls[k]? = some (m, q)) :
      Step s (.answered m q)
        { s with dispatcher := s.dispatcher.count q, calls := s.calls.eraseIdx k }
  | take {k m d} (hidle : s.hands[k]? = some none) (h : s.dispatcher.take? = some (m, d)) :
      Step s (.took k m) { s with dispatcher := d, hands := s.hands.set k (some m) }
  | finish {k m} (hbusy : s.hands[k]? = some (some m)) (published : Bool) :
      Step s (.ended k m published)
        { s with dispatcher := s.dispatcher.finish m published, hands := s.hands.set k none }
  | close : Step s .closed { s with dispatcher := s.dispatcher.close }

/-- Steps one after the other, with what has happened, the first event first. -/
inductive Runs (s : Crew) : List Event → Crew → Prop
  | refl : Runs s [] s
  | tail {es e t u} (h : Runs s es t) (hstep : Step t e u) : Runs s (es ++ [e]) u

variable {s t u : Crew} {es es' : List Event} {e : Event} {k : Nat} {m : Message}

theorem Runs.trans (h : Runs s es t) (h' : Runs t es' u) : Runs s (es ++ es') u := by
  induction h' with
  | refl => rwa [List.append_nil]
  | tail _ hstep ih =>
      rw [← List.append_assoc]
      exact ih.tail hstep

theorem Runs.single (h : Step s e t) : Runs s [e] t := Runs.refl.tail h

/-! ## Hands -/

theorem held_eq_some : s.held k = some m ↔ s.hands[k]? = some (some m) := by
  simp [held, Option.join_eq_some_iff]

/-- All that the workers are bringing out. -/
def load (hands : List (Option Message)) : List Message := hands.filterMap id

variable {hands : List (Option Message)}

theorem load_set_some (h : hands[k]? = some none) (m : Message) :
    (load (hands.set k (some m))).Perm (m :: load hands) := by
  obtain ⟨hk, hnone⟩ := List.getElem?_eq_some_iff.mp h
  have hset := (List.set_perm_cons_eraseIdx hk (some m)).filterMap id
  have hold := (List.getElem_cons_eraseIdx_perm hk).filterMap id
  rw [hnone] at hold
  exact hset.trans (hold.cons m)

theorem load_set_none (h : hands[k]? = some (some m)) :
    (load hands).Perm (m :: load (hands.set k none)) := by
  obtain ⟨hk, hsome⟩ := List.getElem?_eq_some_iff.mp h
  have hset := (List.set_perm_cons_eraseIdx hk none).filterMap id
  have hold := (List.getElem_cons_eraseIdx_perm hk).filterMap id
  rw [hsome] at hold
  exact hold.symm.trans (hset.symm.cons m)

theorem load_eq_nil_iff : load s.hands = [] ↔ s.isIdle := by
  constructor
  · intro h k
    by_contra hheld
    obtain ⟨m, hm⟩ := Option.ne_none_iff_exists'.mp hheld
    have hload := (load_set_none (held_eq_some.mp hm)).length_eq
    rw [h] at hload
    cases hload
  · intro h
    refine List.filterMap_eq_nil_iff.mpr fun o ho => ?_
    obtain ⟨k, hk⟩ := List.mem_iff_getElem?.mp ho
    cases o with
    | none => rfl
    | some m =>
        have hheld := h k
        rw [held_eq_some.mpr hk] at hheld
        cases hheld

/-- What an event tells of the step: how the queue, the hands and the counts have moved. -/
structure Effect (s : Crew) (e : Event) (t : Crew) : Prop where
  capacity : t.dispatcher.capacity = s.dispatcher.capacity
  workers : t.hands.length = s.hands.length
  closed : t.dispatcher.isClosed = (s.dispatcher.isClosed || e.isClose)
  calls : (s.calls ++ e.sent?.toList).Perm (e.answered?.toList ++ t.calls)
  answers : t.dispatcher.stats.queued + t.dispatcher.stats.dropped =
    s.dispatcher.stats.queued + s.dispatcher.stats.dropped + e.answered?.toList.length
  counted : t.dispatcher.stats.queued = s.dispatcher.stats.queued + e.answered?.toList.countP (·.2)
  queued : t.dispatcher.stats.queued + t.uncounted =
    s.dispatcher.stats.queued + s.uncounted + e.queued?.toList.length
  queue : e.taken?.toList ++ t.dispatcher.queue = s.dispatcher.queue ++ e.queued?.toList
  room : s.dispatcher.queue.length ≤ s.dispatcher.capacity → t.dispatcher.queue.length ≤ s.dispatcher.capacity
  hands : ∀ k, (s.held k).toList ++ (e.takenBy? k).toList = (e.endedBy? k).toList ++ (t.held k).toList
  published : t.dispatcher.stats.published = s.dispatcher.stats.published + (e.isEnd true).toNat
  failed : t.dispatcher.stats.failed = s.dispatcher.stats.failed + (e.isEnd false).toNat
  taken : s.dispatcher.taken.Perm (load s.hands) → t.dispatcher.taken.Perm (load t.hands)
  load : (load t.hands).length + (e.isEnd true).toNat + (e.isEnd false).toNat =
    (load s.hands).length + e.taken?.toList.length

theorem held_set (hk : k < s.hands.length) (d : Dispatcher) (o : Option Message) (k' : Nat) :
    Crew.held { s with dispatcher := d, hands := s.hands.set k o } k' = if k = k' then o else s.held k' := by
  by_cases h : k = k'
  · subst h
    simp [held, hk]
  · simp [held, h]

theorem effect_send (s : Crew) (m : Message) :
    Effect s (.sent m (s.dispatcher.send m).1)
      { s with
        dispatcher := (s.dispatcher.send m).2
        calls := s.calls ++ [(m, (s.dispatcher.send m).1)] } where
  capacity := (s.dispatcher.send_same m).1
  workers := rfl
  closed := by simp [(s.dispatcher.send_same m).2.2.1, Event.isClose]
  calls := .refl _
  answers := by simp [(s.dispatcher.send_same m).2.2.2, Event.answered?]
  counted := by simp [(s.dispatcher.send_same m).2.2.2, Event.answered?]
  queued := by
    rw [(s.dispatcher.send_same m).2.2.2, uncounted, uncounted, List.countP_append]
    cases (s.dispatcher.send m).1 <;> simp [Event.queued?, Nat.add_assoc]
  queue := by
    rw [s.dispatcher.queue_send m]
    cases (s.dispatcher.send m).1 <;> simp [Event.queued?, Event.taken?]
  room h := Dispatcher.length_queue_send_le h m
  hands k := by simp [held, Event.endedBy?, Event.takenBy?]
  published := by simp [(s.dispatcher.send_same m).2.2.2, Event.isEnd]
  failed := by simp [(s.dispatcher.send_same m).2.2.2, Event.isEnd]
  taken hperm := (s.dispatcher.send_same m).2.1 ▸ hperm
  load := rfl

theorem effect_count {queued : Bool} (hcall : s.calls[k]? = some (m, queued)) :
    Effect s (.answered m queued)
      { s with dispatcher := s.dispatcher.count queued, calls := s.calls.eraseIdx k } := by
  obtain ⟨hcapacity, hqueue, htaken, hclosed⟩ := s.dispatcher.count_same queued
  have hstats := s.dispatcher.stats_count queued
  have hcalls : ((m, queued) :: s.calls.eraseIdx k).Perm s.calls := by
    obtain ⟨hk, heq⟩ := List.getElem?_eq_some_iff.mp hcall
    exact heq ▸ List.getElem_cons_eraseIdx_perm hk
  have huncounted := hcalls.countP_eq (·.2)
  rw [List.countP_cons] at huncounted
  refine ⟨hcapacity, rfl, by simp [hclosed, Event.isClose], ?_, ?_, ?_, ?_, ?_, fun h => hqueue ▸ h, fun k => ?_,
    by simp [hstats, Event.isEnd], by simp [hstats, Event.isEnd], fun hperm => htaken ▸ hperm, rfl⟩
  · simpa [Event.sent?, Event.answered?] using hcalls.symm
  · cases queued with
    | false => simp [hstats, Event.answered?, Nat.add_assoc]
    | true => simp [hstats, Event.answered?, Nat.add_right_comm]
  · cases queued <;> simp [hstats, Event.answered?]
  · simp only [uncounted, hstats, ← huncounted]
    cases queued with
    | false => simp [Event.queued?]
    | true => simp [Event.queued?, Nat.add_assoc, Nat.add_comm 1]
  · simp [hqueue, Event.queued?, Event.taken?]
  · simp [held, Event.endedBy?, Event.takenBy?]

theorem effect_take {d : Dispatcher} (hidle : s.hands[k]? = some none) (h : s.dispatcher.take? = some (m, d)) :
    Effect s (.took k m) { s with dispatcher := d, hands := s.hands.set k (some m) } := by
  obtain ⟨hqueue, hd⟩ := Dispatcher.take?_eq_some.mp h
  have hk : k < s.hands.length := (List.getElem?_eq_some_iff.mp hidle).1
  have hload := load_set_some hidle m
  have hstats : d.stats = s.dispatcher.stats := by rw [hd]
  refine ⟨by rw [hd], List.length_set, (congrArg Dispatcher.isClosed hd).trans (Bool.or_false _).symm,
    by simp [Event.sent?, Event.answered?], by simp [hstats, Event.answered?], by simp [hstats, Event.answered?],
    by simp [hstats, uncounted, Event.queued?], ?_, fun hroom => ?_, fun k' => ?_,
    by simp [hstats, Event.isEnd], by simp [hstats, Event.isEnd], fun hperm => ?_, ?_⟩
  · simp [hqueue, Event.queued?, Event.taken?]
  · rw [hqueue, List.length_cons] at hroom
    exact Nat.le_of_succ_le hroom
  · rw [held_set hk]
    by_cases hk' : k = k'
    · subst hk'
      simp [held, hidle, Event.takenBy?, Event.endedBy?]
    · simp [hk', Event.takenBy?, Event.endedBy?]
  · have htaken : d.taken = s.dispatcher.taken ++ [m] := by rw [hd]
    rw [htaken]
    exact (List.perm_append_singleton m _).trans ((hperm.cons m).trans hload.symm)
  · simpa [Event.isEnd, Event.taken?] using hload.length_eq

theorem effect_finish (hbusy : s.hands[k]? = some (some m)) (published : Bool) :
    Effect s (.ended k m published)
      { s with dispatcher := s.dispatcher.finish m published, hands := s.hands.set k none } := by
  have hk : k < s.hands.length := (List.getElem?_eq_some_iff.mp hbusy).1
  have hload := load_set_none hbusy
  refine ⟨rfl, List.length_set, (Bool.or_false _).symm, by simp [Event.sent?, Event.answered?], ?_, ?_, ?_, ?_,
    fun hroom => hroom, fun k' => ?_, ?_, ?_, fun hperm => ?_, ?_⟩
  · cases published <;> rfl
  · cases published <;> rfl
  · cases published <;> rfl
  · simp [Dispatcher.finish, Event.queued?, Event.taken?]
  · rw [held_set hk]
    by_cases hk' : k = k'
    · subst hk'
      simp [held, hbusy, Event.takenBy?, Event.endedBy?]
    · simp [hk', Event.takenBy?, Event.endedBy?]
  · cases published <;> rfl
  · cases published <;> rfl
  · have herase := (hperm.trans hload).erase m
    rwa [List.erase_cons_head] at herase
  · have hlength := hload.length_eq
    rw [List.length_cons] at hlength
    cases published <;> simp [Event.isEnd, Event.taken?, hlength]

theorem effect_close (s : Crew) : Effect s .closed { s with dispatcher := s.dispatcher.close } where
  capacity := rfl
  workers := rfl
  closed := (Bool.or_true _).symm
  calls := by simp [Event.sent?, Event.answered?]
  answers := rfl
  counted := rfl
  queued := rfl
  queue := by simp [Dispatcher.close, Event.queued?, Event.taken?]
  room h := h
  hands k := by simp [held, Event.takenBy?, Event.endedBy?]
  published := rfl
  failed := rfl
  taken h := h
  load := rfl

theorem Step.effect (h : Step s e t) : Effect s e t := by
  cases h with
  | send m => exact effect_send s m
  | count hcall => exact effect_count hcall
  | take hidle h => exact effect_take hidle h
  | finish hbusy published => exact effect_finish hbusy published
  | close => exact effect_close s

/-! ## Balances -/

/-- Where everything is that was handed over. -/
structure Balanced (capacity workers : Nat) (es : List Event) (s : Crew) : Prop where
  limit : s.dispatcher.capacity = max 1 capacity
  crew : s.hands.length = max 1 workers
  closed : s.dispatcher.isClosed = es.any Event.isClose
  /-- Every call is answered once, with whether its message was put into the queue. -/
  calls : (es.filterMap Event.sent?).Perm (es.filterMap Event.answered? ++ s.calls)
  /-- Every call that was answered is counted, as queued or as dropped. -/
  answers : s.dispatcher.stats.queued + s.dispatcher.stats.dropped = (es.filterMap Event.answered?).length
  counted : s.dispatcher.stats.queued = (es.filterMap Event.answered?).countP (·.2)
  queued : s.dispatcher.stats.queued + s.uncounted = (es.filterMap Event.queued?).length
  /-- Messages leave the queue in the order in which they entered it. -/
  order : es.filterMap Event.taken? ++ s.dispatcher.queue = es.filterMap Event.queued?
  room : s.dispatcher.queue.length ≤ max 1 capacity
  /-- A worker brings out what it has taken, each message once. -/
  hands : ∀ k, es.filterMap (Event.endedBy? k) ++ (s.held k).toList = es.filterMap (Event.takenBy? k)
  published : s.dispatcher.stats.published = es.countP (Event.isEnd true)
  failed : s.dispatcher.stats.failed = es.countP (Event.isEnd false)
  taken : s.dispatcher.taken.Perm (load s.hands)
  underway : s.dispatcher.stats.published + s.dispatcher.stats.failed + (load s.hands).length =
    (es.filterMap Event.taken?).length

variable {capacity workers : Nat}

theorem isIdle_start (capacity workers : Nat) : (start capacity workers).isIdle := fun k => by
  rw [held, start, List.getElem?_replicate]
  split <;> rfl

theorem balanced_start (capacity workers : Nat) : Balanced capacity workers [] (start capacity workers) := by
  have hidle := isIdle_start capacity workers
  have hload := load_eq_nil_iff.mpr hidle
  refine ⟨rfl, List.length_replicate, rfl, .refl _, rfl, rfl, rfl, rfl, Nat.zero_le _, fun k => ?_, rfl, rfl, ?_, ?_⟩
  · rw [hidle k]
    rfl
  · rw [hload]
    exact .refl _
  · rw [hload]
    rfl

theorem countP_concat {α : Type} (p : α → Bool) (as : List α) (a : α) :
    (as ++ [a]).countP p = as.countP p + (p a).toNat := by
  cases h : p a <;> simp [h]

theorem filterMap_concat {α β : Type} (f : α → Option β) (as : List α) (a : α) :
    (as ++ [a]).filterMap f = as.filterMap f ++ (f a).toList := by
  cases h : f a <;> simp [h]

theorem Balanced.step (h : Balanced capacity workers es s) (hstep : Step s e t) :
    Balanced capacity workers (es ++ [e]) t := by
  have heffect := hstep.effect
  refine ⟨heffect.capacity.trans h.limit, heffect.workers.trans h.crew, ?_, ?_, ?_, ?_, ?_, ?_, ?_, fun k => ?_,
    ?_, ?_, heffect.taken h.taken, ?_⟩
  · simp [heffect.closed, h.closed]
  · rw [filterMap_concat, filterMap_concat, List.append_assoc]
    refine (h.calls.append_right _).trans ?_
    rw [List.append_assoc]
    exact heffect.calls.append_left _
  · rw [heffect.answers, h.answers, filterMap_concat, List.length_append]
  · rw [heffect.counted, h.counted, filterMap_concat, List.countP_append]
  · rw [heffect.queued, h.queued, filterMap_concat, List.length_append]
  · rw [filterMap_concat, filterMap_concat, List.append_assoc, heffect.queue, ← List.append_assoc, h.order]
  · have hroom := heffect.room (h.limit ▸ h.room)
    rwa [h.limit] at hroom
  · rw [filterMap_concat, filterMap_concat, List.append_assoc, ← heffect.hands, ← List.append_assoc, h.hands]
  · rw [heffect.published, h.published, countP_concat]
  · rw [heffect.failed, h.failed, countP_concat]
  · have hload := heffect.load
    have hunderway := h.underway
    rw [filterMap_concat, List.length_append, heffect.published, heffect.failed]
    omega

theorem Runs.balanced_of (h : Runs s es' t) (hs : Balanced capacity workers es s) :
    Balanced capacity workers (es ++ es') t := by
  induction h with
  | refl => rwa [List.append_nil]
  | tail _ hstep ih =>
      rw [← List.append_assoc]
      exact ih.step hstep

theorem Runs.balanced (h : Runs (start capacity workers) es s) : Balanced capacity workers es s :=
  h.balanced_of (balanced_start capacity workers)

theorem Balanced.accounts (h : Balanced capacity workers es s) :
    s.dispatcher.stats.published + s.dispatcher.stats.failed + (load s.hands).length + s.dispatcher.queue.length =
      s.dispatcher.stats.queued + s.uncounted := by
  rw [h.underway, h.queued, ← h.order, List.length_append]

/-! ## Whole calls -/

end Crew

end EdgeFleet
