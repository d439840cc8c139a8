import EdgeFleet.Proofs.Fleet.Offers
import EdgeFleet.Proofs.Fleet.Runs

/-! # Redelivery is invisible

Once a report has been delivered the filter holds its stamp or a later one, whatever it said and whatever
happens afterwards. Another delivery of the report is therefore refused, and all that it leaves behind is
counted.
-/

namespace EdgeFleet.Fleet

/-- The report that a call delivers. -/
def Event.report? (e : Event) : Option Heartbeat := e.delivery?.map (·.1)

/-! ## Stale reports -/

/-- The filter does not let the report pass. -/
def IsStale (f : Fleet) (h : Heartbeat) : Prop :=
  Filter.judge (f.filter.get? h.name) (.ofHeartbeat h) ≠ .accepted

theorem isStale_iff (f : Fleet) (h : Heartbeat) :
    f.IsStale h ↔ ∃ t, f.filter.get? h.name = some t ∧ ¬t.Before (.ofHeartbeat h) := by
  rw [IsStale, ne_eq, Filter.judge_eq_accepted_iff]
  simp

/-- The filter moves by the reports that are delivered, and by nothing else. -/
theorem filter_after (f : Fleet) (e : Event) :
    (f.after e).filter =
      match e.report? with
      | some h => (f.filter.decide h.name (.ofHeartbeat h)).2
      | none => f.filter := by
  have hjudge : ∀ (f : Fleet) h now,
      (f.judge h now).2.filter = (f.filter.decide h.name (.ofHeartbeat h)).2 := by
    intro f h now
    by_cases haccepted : Filter.judge (f.filter.get? h.name) (.ofHeartbeat h) = .accepted
    · rw [judge_of_accepted haccepted, Filter.decide_of_accepted haccepted]
      rfl
    · rw [judge_of_stale haccepted, Filter.decide_of_stale haccepted]
  cases e with
  | consume h now => exact hjudge f.countReceived h now
  | ingest payload now =>
      simp only [after, call, ingest, Event.report?, Event.delivery?]
      cases Heartbeat.decode? payload with
      | none => rfl
      | some h => exact hjudge f.countReceived h now
  | sweep limit now => rfl
  | define w now => rfl
  | retract ns name now =>
      rw [after, call]
      cases f.desired.retract ns name now <;> rfl

/-- A delivered report is stale from then on, whatever the filter said of it. -/
theorem isStale_after_of_report {f : Fleet} {e : Event} {h : Heartbeat} (hreport : e.report? = some h) :
    (f.after e).IsStale h := by
  rw [isStale_iff, filter_after, hreport, Filter.get?_decide]
  by_cases haccepted : Filter.judge (f.filter.get? h.name) (.ofHeartbeat h) = .accepted
  · exact ⟨.ofHeartbeat h, if_pos ⟨rfl, haccepted⟩, Stamp.not_before_self _⟩
  · obtain ⟨t, ht, hbefore⟩ := (f.isStale_iff h).mp haccepted
    exact ⟨t, by rw [if_neg fun h' => haccepted h'.2, ht], hbefore⟩

/-- What is stale stays so: the stored stamp of an agent is only ever replaced by a later one. -/
theorem IsStale.after {f : Fleet} {h : Heartbeat} (hstale : f.IsStale h) (e : Event) :
    (f.after e).IsStale h := by
  obtain ⟨t, ht, hbefore⟩ := (f.isStale_iff h).mp hstale
  rw [isStale_iff, filter_after]
  cases e.report? with
  | none => exact ⟨t, ht, hbefore⟩
  | some r =>
      dsimp only
      rw [Filter.get?_decide]
      split
      · next hpassed =>
        obtain ⟨hname, haccepted⟩ := hpassed
        refine ⟨.ofHeartbeat r, rfl, fun hr => hbefore ?_⟩
        have hlater : t.Before (.ofHeartbeat r) :=
          (Filter.judge_eq_accepted_iff _ _).mp haccepted t (hname ▸ ht)
        exact hlater.trans hr
      · exact ⟨t, ht, hbefore⟩

/-! ## Refusals -/

/-- The fleet with some more reports counted as received and rejected. -/
def countRejected (f : Fleet) (n : Nat) : Fleet :=
  { f with stats := { f.stats with received := f.stats.received + n, rejected := f.stats.rejected + n } }

theorem countRejected_add (f : Fleet) (m n : Nat) :
    (f.countRejected m).countRejected n = f.countRejected (m + n) := by
  simp only [countRejected, Nat.add_assoc]

/-- A report was turned away, so that nothing came of it. -/
def Answer.IsRejection : Answer → Prop
  | .consumed (.rejected d) | .ingested (some (_, .rejected d)) => d ≠ .accepted
  | _ => False

/-- A stale report is turned away and counted. -/
theorem call_of_stale {f : Fleet} {h : Heartbeat} (hstale : f.IsStale h) {e : Event}
    (hreport : e.report? = some h) : (f.call e).1.IsRejection ∧ f.after e = f.countRejected 1 := by
  have hcounted : f.countReceived.IsStale h := hstale
  have hjudge := judge_of_stale hcounted
  cases e with
  | consume r now =>
      cases hreport
      simp only [after, call, consume, hjudge]
      exact ⟨hstale, rfl⟩
  | ingest payload now =>
      have hdecode : Heartbeat.decode? payload = some h := by
        simpa [Event.report?, Event.delivery?, Function.comp_def] using hreport
      simp only [after, call, ingest, hdecode, hjudge]
      exact ⟨hstale, rfl⟩
  | sweep | define | retract => cases hreport

/-- No answer and no store depends on what was counted. -/
theorem call_countRejected (f : Fleet) (n : Nat) (e : Event) :
    (f.countRejected n).call e = ((f.call e).1, (f.after e).countRejected n) := by
  have hjudge : ∀ r now, (f.countRejected n).countReceived.judge r now =
      ((f.countReceived.judge r now).1, (f.countReceived.judge r now).2.countRejected n) := by
    intro r now
    have hcounted : (f.countRejected n).countReceived = f.countReceived.countRejected n := by
      simp only [countReceived, countRejected, Nat.add_right_comm]
    rw [hcounted]
    have hfilter : (f.countReceived.countRejected n).filter = f.countReceived.filter := rfl
    by_cases haccepted : Filter.judge (f.countReceived.filter.get? r.name) (.ofHeartbeat r) = .accepted
    · rw [judge_of_accepted haccepted, judge_of_accepted (hfilter ▸ haccepted)]
      rfl
    · rw [judge_of_stale haccepted, judge_of_stale (hfilter ▸ haccepted)]
      simp only [countRejected, Nat.add_right_comm]
  cases e with
  | consume r now => simp only [after, call, consume, hjudge]
  | ingest payload now =>
      simp only [after, call, ingest]
      cases Heartbeat.decode? payload with
      | none => simp only [countReceived, countRejected, Nat.add_right_comm]
      | some r => simp only [hjudge]
  | sweep limit now => rfl
  | define w now => rfl
  | retract ns name now =>
      simp only [after, call, countRejected]
      cases f.desired.retract ns name now <;> rfl

/-! ## Runs with redeliveries -/

theorem afterAll_append (f : Fleet) (es : List Event) (e : Event) :
    f.afterAll (es ++ [e]) = (f.afterAll es).after e :=
  List.foldl_append

theorem length_answers (f : Fleet) (es : List Event) : (f.answers es).length = es.length := by
  induction es generalizing f with
  | nil => rfl
  | cons e es ih => rw [answers, List.length_cons, List.length_cons, ih]

theorem answers_append (f : Fleet) (es : List Event) (e : Event) :
    f.answers (es ++ [e]) = f.answers es ++ [((f.afterAll es).call e).1] := by
  induction es generalizing f with
  | nil => rfl
  | cons e' es ih =>
      rw [List.cons_append, answers, answers, ih]
      rfl

/-- A call of a run, and whether it was inserted. -/
structure Turn where
  event : Event
  again : Bool

/-- All calls of the run. -/
def calls (ts : List Turn) : List Event := ts.map (·.event)

/-- The run without the calls that were inserted. -/
def original (ts : List Turn) : List Event := calls (ts.filter (!·.again))

/-- The calls of the run with their answers. -/
def answered (f : Fleet) (ts : List Turn) : List (Turn × Answer) := ts.zip (f.answers (calls ts))

/-- Every call that was inserted delivers a report that has been delivered before. -/
def OnlyRepeats (ts : List Turn) : Prop :=
  ∀ before t later, ts = before ++ t :: later → t.again = true →
    ∃ u ∈ before, ∃ h, u.event.report? = some h ∧ t.event.report? = some h

section

variable (f : Fleet) (ts : List Turn) (t : Turn)

theorem calls_append : calls (ts ++ [t]) = calls ts ++ [t.event] :=
  List.map_append

theorem original_append : original (ts ++ [t]) = original ts ++ if t.again then [] else [t.event] := by
  rw [original, List.filter_append, calls, List.map_append]
  cases h : t.again <;> simp [original, calls, h]

theorem answered_append :
    f.answered (ts ++ [t]) = f.answered ts ++ [(t, ((f.afterAll (calls ts)).call t.event).1)] := by
  have hlength : ts.length = (f.answers (calls ts)).length := by
    rw [length_answers, calls, List.length_map]
  rw [answered, calls_append, answers_append, List.zip_append hlength]
  rfl

theorem onlyRepeats_append :
    OnlyRepeats (ts ++ [t]) ↔ OnlyRepeats ts ∧ (t.again = true →
      ∃ u ∈ ts, ∃ h, u.event.report? = some h ∧ t.event.report? = some h) := by
  constructor
  · intro h
    exact ⟨fun before u later hts => h before u (later ++ [t]) (by simp [hts]), h ts t [] rfl⟩
  · rintro ⟨h, hlast⟩ before u later hts
    -- The turn in question is the last one or stands in the part before it.
    rcases List.eq_nil_or_concat' later with rfl | ⟨later, t', rfl⟩
    · obtain ⟨rfl, hsame⟩ := List.append_inj' hts rfl
      cases hsame
      exact hlast
    · rw [← List.cons_append, ← List.append_assoc] at hts
      exact h before u later (List.append_inj' hts rfl).1

end

/-- Reports that were delivered in a run are stale after it. -/
theorem isStale_afterAll {ts : List Turn} {u : Turn} (hu : u ∈ ts) {h : Heartbeat}
    (hreport : u.event.report? = some h) (f : Fleet) : (f.afterAll (calls ts)).IsStale h := by
  induction ts using List.reverseRecOn with
  | nil => cases hu
  | append_singleton ts t ih =>
      rw [calls_append, afterAll_append]
      rcases List.mem_append.mp hu with hu | hu
      · exact (ih hu).after t.event
      · cases List.mem_singleton.mp hu
        exact isStale_after_of_report hreport

/-- Whatever fleet a run begins with, and whatever calls it consists of: if deliveries of reports are
inserted after the first delivery of each, as often and as late as one likes, they are all turned away,
every other call answers as it did, and the fleet is the same in the end, but for the reports that it has
received and rejected. -/
theorem redelivery_is_invisible (f : Fleet) {ts : List Turn} (h : OnlyRepeats ts) :
    (∀ a ∈ f.answered ts, a.1.again = true → a.2.IsRejection) ∧
      ((f.answered ts).filter (!·.1.again)).map (·.2) = f.answers (original ts) ∧
      f.afterAll (calls ts) = (f.afterAll (original ts)).countRejected (ts.countP (·.again)) := by
  induction ts using List.reverseRecOn with
  | nil => exact ⟨by simp [answered], by simp [answered, original, calls, answers], rfl⟩
  | append_singleton ts t ih =>
      obtain ⟨hrepeats, hrepeat⟩ := (onlyRepeats_append ts t).mp h
      obtain ⟨hrejected, hanswers, hlast⟩ := ih hrepeats
      rw [answered_append, calls_append, original_append, afterAll_append, List.filter_append,
        List.map_append, List.countP_append, hanswers]
      cases hagain : t.again with
      | true =>
          obtain ⟨u, hu, r, hdelivered, hreport⟩ := hrepeat hagain
          obtain ⟨hrejection, hafter⟩ := call_of_stale (isStale_afterAll hu hdelivered f) hreport
          refine ⟨fun a ha hinserted => ?_, by simp [hagain], ?_⟩
          · rcases List.mem_append.mp ha with ha | ha
            · exact hrejected a ha hinserted
            · cases List.mem_singleton.mp ha
              exact hrejection
          · rw [hafter, hlast, countRejected_add]
            simp [hagain]
      | false =>
          have hcall := call_countRejected (f.afterAll (original ts)) (ts.countP (·.again)) t.event
          refine ⟨fun a ha hinserted => ?_, ?_, ?_⟩
          · rcases List.mem_append.mp ha with ha | ha
            · exact hrejected a ha hinserted
            · cases List.mem_singleton.mp ha
              rw [hagain] at hinserted
              cases hinserted
          · rw [hlast, hcall]
            simp [hagain, answers_append]
          · rw [hlast, after, hcall]
            simp [hagain, afterAll_append]

/-- An agent is registered, goes offline and comes back. Meanwhile its first report and one that was too
late when it came are delivered again. -/
theorem redelivery_is_invisible_offline :
    let minute : Timestamp := ⟨1970, 1, 1, 0, 1, 0, 0, 0, by decide, by decide⟩
    let first : Heartbeat := { Heartbeat.ofName "edge-1" with seqnum := 2 }
    let late : Heartbeat := { Heartbeat.ofName "edge-1" with seqnum := 1 }
    let ts : List Turn := [⟨.consume first .epoch, false⟩, ⟨.sweep 0 .epoch, false⟩,
      ⟨.sweep 0 minute, false⟩, ⟨.consume first minute, true⟩, ⟨.consume late minute, false⟩,
      ⟨.consume { first with seqnum := 3 } minute, false⟩, ⟨.consume late minute, true⟩]
    let f := ofDefinitions [⟨"web", "fleet", .ofImage "nginx"⟩] .epoch
    OnlyRepeats ts ∧ (∀ a ∈ f.answered ts, a.1.again = true → a.2.IsRejection) ∧
      f.afterAll (calls ts) = (f.afterAll (original ts)).countRejected 2 ∧
      (f.afterAll ((original ts).take 3)).registry.stateOf? "edge-1" = some .offline ∧
      (f.afterAll (original ts)).registry.stateOf? "edge-1" = some .registering := by
  intro minute first late ts f
  have hrepeats : OnlyRepeats ts := by
    have hfirst : OnlyRepeats (ts.take 3) := by
      intro before t later hts hagain
      have hmem : t ∈ ts.take 3 := by simp [hts]
      have hown : ∀ u ∈ ts.take 3, u.again = false := by simp [ts]
      rw [hown t hmem] at hagain
      cases hagain
    have hagain := (onlyRepeats_append _ ts[3]).mpr ⟨hfirst, fun _ => ⟨ts[0], by simp [ts], first, rfl, rfl⟩⟩
    have hlate := (onlyRepeats_append _ ts[4]).mpr ⟨hagain, fun h => absurd h (by simp [ts])⟩
    have hnext := (onlyRepeats_append _ ts[5]).mpr ⟨hlate, fun h => absurd h (by simp [ts])⟩
    exact (onlyRepeats_append _ ts[6]).mpr ⟨hnext, fun _ => ⟨ts[4], by simp [ts], late, rfl, rfl⟩⟩
  obtain ⟨hrejected, -, hlast⟩ := redelivery_is_invisible f hrepeats
  exact ⟨hrepeats, hrejected, hlast, by decide +kernel, by decide +kernel⟩

end EdgeFleet.Fleet
