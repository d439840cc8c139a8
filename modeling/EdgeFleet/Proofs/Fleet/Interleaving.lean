import EdgeFleet.Proofs.Fleet.Ingestion

/-! # Reports that are taken in side by side

Each report is taken in by a task of its own, and the steps of other tasks may come between any two of its
steps. So every store notes the reports that pass in an order of its own, and what it shows of an agent is the
report that came to it last.
-/

namespace EdgeFleet

open Fleet

/-! ## Reports in the order of their stamps -/

/-- Of two reports of one agent the one with the later stamp comes later. -/
def InOrder (ds : List Delivery) : Prop :=
  ds.Pairwise fun d d' => d.1.name = d'.1.name → (Stamp.ofHeartbeat d.1).Before (.ofHeartbeat d'.1)

/-- The last of the reports of an agent. -/
def lastOf (agent : String) (ds : List Delivery) : Option Delivery := (deliveriesOf agent ds).getLast?

theorem lastOf_append (agent : String) (ds : List Delivery) (d : Delivery) :
    lastOf agent (ds ++ [d]) = if d.1.name = agent then some d else lastOf agent ds := by
  rw [lastOf, deliveriesOf_append]
  split <;> simp [lastOf]

theorem mem_of_lastOf {agent : String} {ds : List Delivery} {d : Delivery} (h : lastOf agent ds = some d) :
    d ∈ ds ∧ d.1.name = agent := by
  have hmem := List.mem_of_getLast? h
  simpa [deliveriesOf] using hmem

/-- The last of some reports in order has the greatest stamp. -/
theorem last_of_mem {ds : List Delivery} (h : InOrder ds) {d : Delivery} (hd : d ∈ ds) {agent : String}
    (hname : d.1.name = agent) : ∃ last, lastOf agent ds = some last ∧
      (d = last ∨ (Stamp.ofHeartbeat d.1).Before (.ofHeartbeat last.1)) := by
  induction ds using List.reverseRecOn with
  | nil => cases hd
  | append_singleton ds e ih =>
      obtain ⟨hds, -, hlater⟩ := List.pairwise_append.mp h
      rw [lastOf_append]
      rcases List.mem_append.mp hd with hd | hd
      · split
        · next hagent =>
          exact ⟨e, rfl, .inr (hlater d hd e (List.mem_singleton_self e) (hname.trans hagent.symm))⟩
        · exact ih hds hd
      · have heq : d = e := List.mem_singleton.mp hd
        exact ⟨e, if_pos (heq ▸ hname), .inl heq⟩

theorem inOrder_append_iff {ds : List Delivery} {d : Delivery} :
    InOrder (ds ++ [d]) ↔ InOrder ds ∧ ∀ d', lastOf d.1.name ds = some d' →
      (Stamp.ofHeartbeat d'.1).Before (.ofHeartbeat d.1) := by
  simp only [InOrder, List.pairwise_append, List.pairwise_singleton, List.mem_singleton, true_and]
  refine and_congr_right fun hds => ⟨fun h d' hlast => ?_, fun h d' hd' e he hname => ?_⟩
  · obtain ⟨hmem, hname⟩ := mem_of_lastOf hlast
    exact h d' hmem d rfl hname
  · rw [he] at hname ⊢
    obtain ⟨last, hlast, hle⟩ := last_of_mem hds hd' hname
    rcases hle with rfl | hbefore
    · exact h _ hlast
    · exact hbefore.trans (h last hlast)

/-- Two lists of the same reports that are both in order end, for each agent, with the same report. -/
theorem lastOf_eq_of_perm {ds ds' : List Delivery} (h : InOrder ds) (h' : InOrder ds') (hperm : ds.Perm ds')
    (agent : String) : lastOf agent ds = lastOf agent ds' := by
  have hsorted : ∀ {ds : List Delivery}, InOrder ds → (deliveriesOf agent ds).Pairwise fun d d' =>
      (Stamp.ofHeartbeat d.1).Before (.ofHeartbeat d'.1) := by
    intro ds hds
    refine (hds.filter _).imp_of_mem fun {d d'} hd hd' hbefore => hbefore ?_
    have hname : d.1.name = agent := by simpa using (List.mem_filter.mp hd).2
    have hname' : d'.1.name = agent := by simpa using (List.mem_filter.mp hd').2
    exact hname.trans hname'.symm
  rw [lastOf, lastOf, (hperm.filter _).eq_of_pairwise (fun d d' _ _ hlt hgt => absurd hgt hlt.not_before)
    (hsorted h) (hsorted h')]

/-- Reports that could be put in order have different stamps, as far as they are of one agent. -/
theorem InOrder.distinct {ds ds' : List Delivery} (h : InOrder ds) (hperm : ds.Perm ds') :
    ds'.Pairwise fun d d' => d.1.name = d'.1.name → Stamp.ofHeartbeat d.1 ≠ .ofHeartbeat d'.1 := by
  have hds : ds.Pairwise fun d d' => d.1.name = d'.1.name → Stamp.ofHeartbeat d.1 ≠ .ofHeartbeat d'.1 := by
    refine h.imp fun hbefore hname heq => ?_
    have hself := hbefore hname
    rw [heq] at hself
    exact Stamp.not_before_self _ hself
  exact (hperm.pairwise_iff fun hne hname heq => hne hname.symm heq.symm).mp hds

/-! ## All tasks -/

/-- The tasks and the fleet that they share. The log is for the proofs alone: for each store the reports that
were noted in it, the first one first. -/
structure Ingestions where
  fleet : Fleet
  tasks : List Ingestion
  log : Part → List Delivery

namespace Ingestions

/-- No task has begun. -/
def start (f : Fleet) (ds : List Delivery) : Ingestions := ⟨f, ds.map .offered, fun _ => []⟩

/-- The task at position `k` takes its next step. -/
def step (s : Ingestions) (k : Nat) : Ingestions :=
  match s.tasks[k]? with
  | none => s
  | some i =>
    let (next, fleet) := s.fleet.advance i
    ⟨fleet, s.tasks.set k next, fun p => s.log p ++ i.writes next p⟩

/-- The tasks take steps in the given order. -/
def run (s : Ingestions) (ks : List Nat) : Ingestions := ks.foldl step s

/-- All reports have been taken in or turned away. -/
def IsOver (s : Ingestions) : Prop := ∀ i ∈ s.tasks, i.isFinished = true

instance (s : Ingestions) : Decidable s.IsOver := inferInstanceAs (Decidable (∀ _ ∈ _, _))

/-- The reports that have passed and are still to be noted in a store. -/
def pending (s : Ingestions) (p : Part) : List Delivery := s.tasks.flatMap (·.pending p)

/-- The stamps that the filter is still to be asked about. -/
def offers (s : Ingestions) : List Offer := s.tasks.flatMap (·.offer)

/-- The task at a position takes a step, or there is none. -/
theorem step_cases (s : Ingestions) (k : Nat) (hs : s.fleet.desired.Consistent) :
    s.tasks[k]? = none ∧ s.step k = s ∨ ∃ i next, s.tasks[k]? = some i ∧
      Ingestion.StepSpec s.fleet i next (s.step k).fleet ∧ (s.step k).tasks = s.tasks.set k next ∧
      ∀ p, (s.step k).log p = s.log p ++ i.writes next p := by
  rw [step]
  cases hk : s.tasks[k]? with
  | none => exact .inl ⟨rfl, rfl⟩
  | some i => exact .inr ⟨i, _, rfl, Ingestion.stepSpec hs i, rfl, fun _ => rfl⟩

theorem flatMap_set_perm {α β : Type} {l : List α} {k : Nat} {a : α} (h : l[k]? = some a) (b : α)
    (g : α → List β) : (g a ++ (l.set k b).flatMap g).Perm (g b ++ l.flatMap g) := by
  obtain ⟨hk, rfl⟩ := List.getElem?_eq_some_iff.mp h
  have hset := (List.set_perm_cons_eraseIdx hk b).flatMap_right g
  have hold := (List.getElem_cons_eraseIdx_perm hk).flatMap_right g
  rw [List.flatMap_cons] at hset hold
  refine (hset.append_left _).trans ?_
  refine (List.perm_append_comm_assoc ..).trans ?_
  exact hold.append_left _

/-- What has been noted stays noted. -/
theorem log_prefix_run (s : Ingestions) (ks : List Nat) (p : Part) : s.log p <+: (s.run ks).log p := by
  induction ks generalizing s with
  | nil => exact List.prefix_rfl
  | cons k ks ih =>
      refine List.IsPrefix.trans ?_ (ih (s.step k))
      rw [step]
      cases s.tasks[k]? with
      | none => exact List.prefix_rfl
      | some i => exact List.prefix_append ..

/-! ### What holds at any time -/

/-- After any steps of the tasks that take in the reports `ds`, from the fleet `f` on. -/
structure Sound (f : Fleet) (ds : List Delivery) (s : Ingestions) : Prop where
  consistent : s.fleet.desired.Consistent
  filed : s.fleet.registry.Filed
  /-- A report that has passed is noted in a store, or it is still to be noted there. -/
  accounts : ∀ p, (s.log .filter).Perm (s.log p ++ s.pending p)
  /-- What a store shows of an agent is the last report that was noted in it. -/
  shows : ∀ p agent d, lastOf agent (s.log p) = some d → s.fleet.Shows d.1 p
  alike : ∀ p agent, lastOf agent (s.log p) = none → s.fleet.Alike f agent p
  /-- Reports pass in the order of their stamps. -/
  inOrder : InOrder (s.log .filter)
  seeded : ∀ d ∈ s.log .filter, ∀ t, f.filter.get? d.1.name = some t → t.Before (.ofHeartbeat d.1)
  filter : ∃ os, (os ++ s.offers).Perm (ds.map fun d => (d.1.name, .ofHeartbeat d.1)) ∧
    s.fleet.filter = f.filter.offerAll os

namespace Sound

variable {f : Fleet} {ds : List Delivery} {s : Ingestions}

theorem start (hf : f.Coherent) (ds : List Delivery) : Sound f ds (.start f ds) where
  consistent := hf.desired
  filed := hf.filed
  accounts p := by
    have hpending : (Ingestions.start f ds).pending p = [] := by
      rw [pending, Ingestions.start, List.flatMap_map]
      exact List.flatMap_eq_nil_iff.mpr fun _ _ => rfl
    rw [hpending]
    exact .refl _
  shows p agent d hd := by cases hd
  alike p agent _ := .refl ..
  inOrder := .nil
  seeded _ hd := absurd hd List.not_mem_nil
  filter := by
    refine ⟨[], ?_, rfl⟩
    have hoffers : (Ingestions.start f ds).offers = ds.map fun d => (d.1.name, .ofHeartbeat d.1) := by
      rw [offers, Ingestions.start, List.flatMap_map, List.map_eq_flatMap]
      rfl
    rw [hoffers]
    exact .refl _

/-- The report that a step notes is the last one then. -/
theorem lastOf_writes (i next : Ingestion) (p : Part) (agent : String) (ds : List Delivery) :
    (∃ d ∈ i.writes next p, d.1.name = agent ∧ lastOf agent (ds ++ i.writes next p) = some d) ∨
      (∀ d ∈ i.writes next p, d.1.name ≠ agent) ∧ lastOf agent (ds ++ i.writes next p) = lastOf agent ds := by
  rcases i.writes_cases next p with hnone | ⟨d, hone⟩
  · rw [hnone, List.append_nil]
    exact .inr ⟨fun _ hd => absurd hd List.not_mem_nil, rfl⟩
  · rw [hone, lastOf_append]
    by_cases hname : d.1.name = agent
    · exact .inl ⟨d, List.mem_singleton_self d, hname, if_pos hname⟩
    · exact .inr ⟨by simpa using hname, if_neg hname⟩

theorem step (h : Sound f ds s) (k : Nat) : Sound f ds (s.step k) := by
  rcases s.step_cases k h.consistent with ⟨-, hsame⟩ | ⟨i, next, hk, hspec, htasks, hlog⟩
  · rwa [hsame]
  have hwrites := fun p agent => lastOf_writes i next p agent (s.log p)
  -- What a new report comes after: the stored stamp is that of the last one that has passed.
  have hstored : ∀ d', lastOf d'.1.name (s.log .filter) = some d' →
      s.fleet.filter.get? d'.1.name = some (.ofHeartbeat d'.1) := fun d' hd' => h.shows .filter _ d' hd'
  refine ⟨hspec.consistent, hspec.filed h.filed, fun p => ?_, fun p agent d hd => ?_,
    fun p agent hnone => ?_, ?_, fun d hd t ht => ?_, ?_⟩
  · rw [hlog, hlog, pending, htasks, List.perm_iff_count]
    intro d
    have haccounts := (h.accounts p).count_eq d
    have hpending := (flatMap_set_perm hk next (·.pending p)).count_eq d
    have hbalance := congrArg (List.count d) (hspec.balance p)
    rw [pending] at haccounts
    simp only [List.count_append] at haccounts hpending hbalance ⊢
    omega
  · rw [hlog] at hd
    rcases hwrites p agent with ⟨d', hmem, -, hd'⟩ | ⟨hother, hsame⟩
    · rw [hd'] at hd
      cases hd
      exact hspec.shows p d hmem
    · rw [hsame] at hd
      have hname := (mem_of_lastOf hd).2
      exact (h.shows p agent d hd).of_alike (hname ▸ hspec.alike p agent hother)
  · rw [hlog] at hnone
    rcases hwrites p agent with ⟨d', -, -, hd'⟩ | ⟨hother, hsame⟩
    · rw [hd'] at hnone
      cases hnone
    · rw [hsame] at hnone
      exact (hspec.alike p agent hother).trans (h.alike p agent hnone)
  · rw [hlog]
    rcases i.writes_cases next .filter with hnone | ⟨d, hone⟩
    · rw [hnone, List.append_nil]
      exact h.inOrder
    · rw [hone, inOrder_append_iff]
      refine ⟨h.inOrder, fun d' hd' => ?_⟩
      have hname := (mem_of_lastOf hd').2
      refine hspec.later d (by simp [hone]) _ (hname ▸ hstored d' ?_)
      rwa [hname]
  · rw [hlog] at hd
    rcases List.mem_append.mp hd with hd | hd
    · exact h.seeded d hd t ht
    · cases hlast : lastOf d.1.name (s.log .filter) with
      | none =>
          have hsame : s.fleet.filter.get? d.1.name = f.filter.get? d.1.name := h.alike .filter _ hlast
          exact hspec.later d hd t (hsame.trans ht)
      | some d' =>
          obtain ⟨hmem, hname⟩ := mem_of_lastOf hlast
          have hbefore : t.Before (.ofHeartbeat d'.1) := h.seeded d' hmem t (hname ▸ ht)
          refine hbefore.trans (hspec.later d hd _ (hname ▸ hstored d' ?_))
          rwa [hname]
  · obtain ⟨os, hperm, hfilter⟩ := h.filter
    refine ⟨os ++ i.offer, ?_, ?_⟩
    · have hoffers := flatMap_set_perm hk next (·.offer)
      rw [hspec.filter.2, List.nil_append] at hoffers
      rw [offers, htasks, List.append_assoc]
      exact (hoffers.append_left os).trans hperm
    · rw [hspec.filter.1, hfilter]
      exact List.foldl_append.symm

theorem run (h : Sound f ds s) (ks : List Nat) : Sound f ds (s.run ks) := by
  induction ks generalizing s with
  | nil => exact h
  | cons k ks ih => exact ih (h.step k)

/-- The stamp of the entry of an agent is that of the last report that was noted in the registry. -/
theorem stamp?_registry (h : Sound f ds s) (hf : f.Coherent) (agent : String) :
    s.fleet.registry.stamp? agent = match lastOf agent (s.log .registry) with
      | some d => some (.ofHeartbeat d.1)
      | none => f.filter.get? agent := by
  rw [Registry.stamp?]
  cases hlast : lastOf agent (s.log .registry) with
  | none =>
      have hsame : s.fleet.registry.get? agent = f.registry.get? agent := h.alike .registry agent hlast
      rw [hsame, hf.get?_filter]
  | some d =>
      obtain ⟨e, he, hrecord⟩ := h.shows .registry agent d hlast
      rw [← (mem_of_lastOf hlast).2, he, Option.map_some, hrecord]
      rfl

/-- A report that is noted in a store has another stamp than those that were noted there before. -/
theorem stamp_ne (h : Sound f ds s) {p : Part} {before : List Delivery} {d d' : Delivery}
    (hlog : s.log p = before ++ [d]) (hd' : d' ∈ before) (hname : d'.1.name = d.1.name) :
    Stamp.ofHeartbeat d'.1 ≠ .ofHeartbeat d.1 := by
  have hdistinct := h.inOrder.distinct (h.accounts p)
  rw [hlog] at hdistinct
  have hnoted := (List.pairwise_append.mp hdistinct).1
  exact (List.pairwise_append.mp hnoted).2.2 d' hd' d (List.mem_singleton_self d) hname

/-- A step turns no entry of the registry back exactly if it notes no report there that is out of order. -/
theorem noOlder_iff (h : Sound f ds s) (hf : f.Coherent) (hordered : InOrder (s.log .registry)) (k : Nat) :
    s.fleet.registry.NoOlder (s.step k).fleet.registry ↔ InOrder ((s.step k).log .registry) := by
  have hnext := h.step k
  rcases s.step_cases k h.consistent with ⟨-, hsame⟩ | ⟨i, next, hk, hspec, -, hlog⟩
  · rw [hsame]
    exact ⟨fun _ => hordered, fun _ agent t ht => ⟨t, ht, Stamp.not_before_self t⟩⟩
  have hbefore := h.stamp?_registry hf
  have hafter := hnext.stamp?_registry hf
  rcases i.writes_cases next .registry with hnone | ⟨d, hone⟩
  · rw [hlog, hnone, List.append_nil] at hafter ⊢
    refine ⟨fun _ => hordered, fun _ agent t ht => ⟨t, ?_, Stamp.not_before_self t⟩⟩
    rw [hafter, ← hbefore, ht]
  · rw [hlog, hone] at hafter ⊢
    have hpassed : d ∈ (s.step k).log .filter :=
      (hnext.accounts .registry).symm.subset (List.mem_append_left _ (by simp [hlog, hone]))
    rw [inOrder_append_iff]
    constructor
    · refine fun hturn => ⟨hordered, fun d' hd' => ?_⟩
      obtain ⟨hmem, hname⟩ := mem_of_lastOf hd'
      obtain ⟨t, ht, hnot⟩ := hturn d.1.name (.ofHeartbeat d'.1) (by rw [hbefore, hd'])
      rw [hafter, lastOf_append, if_pos rfl] at ht
      cases ht
      have hne := hnext.stamp_ne ((hlog .registry).trans (by rw [hone])) hmem hname
      by_contra hlate
      exact hne (Stamp.eq_of_not_before hlate hnot)
    · rintro ⟨-, hlast⟩ agent t ht
      rw [hbefore] at ht
      rw [hafter, lastOf_append]
      by_cases hname : d.1.name = agent
      · subst hname
        rw [if_pos rfl]
        refine ⟨_, rfl, Stamp.Before.not_before ?_⟩
        cases hd' : lastOf d.1.name (s.log .registry) with
        | none =>
            rw [hd'] at ht
            exact hnext.seeded d hpassed t ht
        | some d' =>
            rw [hd'] at ht
            cases ht
            exact hlast d' hd'
      · rw [if_neg hname]
        exact ⟨t, ht, Stamp.not_before_self t⟩

/-- When all reports are taken in and every store has taken them in order, the stores agree. -/
theorem coherent (h : Sound f ds s) (hf : f.Coherent) (hover : s.IsOver) (hordered : ∀ p, InOrder (s.log p)) :
    s.fleet.Coherent := by
  have hlast : ∀ p agent, lastOf agent (s.log p) = lastOf agent (s.log .filter) := by
    intro p agent
    have hnone : s.pending p = [] :=
      List.flatMap_eq_nil_iff.mpr fun i hi => Ingestion.pending_of_isFinished (hover i hi) p
    have haccounts := h.accounts p
    rw [hnone, List.append_nil] at haccounts
    exact (lastOf_eq_of_perm h.inOrder (hordered p) haccounts agent).symm
  refine coherent_of_agreesOn h.filed h.consistent fun agent => ?_
  -- One report is shown by all stores, or all of them are as they were.
  cases hfilter : lastOf agent (s.log .filter) with
  | none => exact (hf.agreesOn agent).of_alike fun p => h.alike p agent ((hlast p agent).trans hfilter)
  | some d =>
      rw [← (mem_of_lastOf hfilter).2]
      exact agreesOn_of_shows fun p => h.shows p agent d ((hlast p agent).trans hfilter)

/-- What the filter holds in the end is what it would hold had it been asked about the reports in turn. -/
theorem filter_eq (h : Sound f ds s) (hover : s.IsOver) :
    s.fleet.filter = f.filter.offerAll (ds.map fun d => (d.1.name, .ofHeartbeat d.1)) := by
  obtain ⟨os, hperm, hfilter⟩ := h.filter
  have hnone : s.offers = [] := List.flatMap_eq_nil_iff.mpr fun i hi => by
    have hfinished := hover i hi
    cases i with
    | finished d outcome => rfl
    | _ => cases hfinished
  rw [hnone, List.append_nil] at hperm
  rw [hfilter, f.filter.offerAll_of_perm hperm]

end Sound

/-! ### Orders of the steps -/

/-- No step of the tasks turns an entry of the registry back. -/
def NeverBack (s : Ingestions) : List Nat → Prop
  | [] => True
  | k :: ks => s.fleet.registry.NoOlder (s.step k).fleet.registry ∧ (s.step k).NeverBack ks

theorem NeverBack.noOlder {s : Ingestions} (before : List Nat) (k : Nat) (later : List Nat)
    (h : s.NeverBack (before ++ k :: later)) :
    (s.run before).fleet.registry.NoOlder (s.run (before ++ [k])).fleet.registry := by
  induction before generalizing s with
  | nil => exact h.1
  | cons _ _ ih => exact ih h.2

/-- If the step at `k` asks the filter, no other report of the agent has passed that is still to be noted. -/
def BeginsAlone (s : Ingestions) (k : Nat) : Prop :=
  ∀ i ∈ s.tasks[k]?.toList, ∀ o ∈ i.offer, ∀ d ∈ s.pending .labels, d.1.name ≠ o.1

instance (s : Ingestions) (k : Nat) : Decidable (s.BeginsAlone k) :=
  inferInstanceAs (Decidable (∀ _ ∈ _, _))

/-- Reports of one agent are taken in one after the other. -/
def Apart (s : Ingestions) : List Nat → Prop
  | [] => True
  | k :: ks => s.BeginsAlone k ∧ (s.step k).Apart ks

instance decidableApart : (s : Ingestions) → (ks : List Nat) → Decidable (s.Apart ks)
  | _, [] => inferInstanceAs (Decidable True)
  | s, k :: ks =>
    have := decidableApart (s.step k) ks
    inferInstanceAs (Decidable (_ ∧ _))

/-- A report that is still to be noted is the last of its agent that has passed. -/
def Alone (s : Ingestions) : Prop :=
  ∀ d ∈ s.pending .labels, lastOf d.1.name (s.log .filter) = some d

namespace Sound

variable {f : Fleet} {ds : List Delivery} {s : Ingestions}

theorem neverBack_iff (h : Sound f ds s) (hf : f.Coherent) (hordered : InOrder (s.log .registry))
    (ks : List Nat) : s.NeverBack ks ↔ InOrder ((s.run ks).log .registry) := by
  induction ks generalizing s with
  | nil => exact ⟨fun _ => hordered, fun _ => trivial⟩
  | cons k ks ih =>
      rw [NeverBack, h.noOlder_iff hf hordered]
      constructor
      · rintro ⟨hstep, hrest⟩
        exact (ih (h.step k) hstep).mp hrest
      · intro hlast
        have hstep : InOrder ((s.step k).log .registry) :=
          hlast.sublist (log_prefix_run (s.step k) ks .registry).sublist
        exact ⟨hstep, (ih (h.step k) hstep).mpr hlast⟩

theorem alone_step (h : Sound f ds s) (halone : s.Alone) {k : Nat} (hbegins : s.BeginsAlone k) :
    (s.step k).Alone := by
  rcases s.step_cases k h.consistent with ⟨-, hsame⟩ | ⟨i, next, hk, hspec, htasks, hlog⟩
  · rwa [hsame]
  intro d hd
  have hd : d ∈ s.pending .labels ∨ d ∈ i.writes next .filter := by
    rw [pending, htasks] at hd
    have hmem := (flatMap_set_perm hk next (·.pending .labels)).subset (List.mem_append_right _ hd)
    rcases List.mem_append.mp hmem with hnext | hold
    · have hbalance := (hspec.balance .labels).symm ▸ List.mem_append_right (i.writes next .labels) hnext
      exact (List.mem_append.mp hbalance).imp_left fun hi =>
        List.mem_flatMap.mpr ⟨i, List.mem_of_getElem? hk, hi⟩
    · exact .inl hold
  rw [hlog]
  rcases lastOf_writes i next .filter d.1.name (s.log .filter) with ⟨e, he, hname, hlast⟩ | ⟨hother, hsame⟩
  · rw [hlast]
    rcases hd with hd | hd
    · obtain ⟨-, rfl⟩ | ⟨hne, -⟩ := Ingestion.of_mem_writes he
      · exact absurd hname.symm (hbegins (.offered e) (by simp [hk]) _ (List.mem_singleton_self _) d hd)
      · exact absurd rfl hne
    · rcases i.writes_cases next .filter with hnone | ⟨x, hone⟩
      · simp [hnone] at he
      · simp only [hone, List.mem_singleton] at he hd
        rw [he, hd]
  · rw [hsame]
    exact halone d (hd.resolve_right fun hnew => hother d hnew rfl)

theorem inOrder_step (h : Sound f ds s) (halone : s.Alone) (hordered : ∀ p, InOrder (s.log p)) (k : Nat)
    (p : Part) : InOrder ((s.step k).log p) := by
  have hnext := h.step k
  rcases s.step_cases k h.consistent with ⟨-, hsame⟩ | ⟨i, next, hk, hspec, -, hlog⟩
  · rw [hsame]
    exact hordered p
  rcases i.writes_cases next p with hnone | ⟨d, hone⟩
  · rw [hlog, hnone, List.append_nil]
    exact hordered p
  obtain ⟨rfl, -⟩ | ⟨-, hpending⟩ := Ingestion.of_mem_writes (hone ▸ List.mem_singleton_self d)
  · exact hnext.inOrder
  have hstep : (s.step k).log p = s.log p ++ [d] := by rw [hlog, hone]
  rw [hstep, inOrder_append_iff]
  refine ⟨hordered p, fun d' hd' => ?_⟩
  obtain ⟨hmem, hname⟩ := mem_of_lastOf hd'
  have hlast : lastOf d.1.name (s.log .filter) = some d :=
    halone d (List.mem_flatMap.mpr ⟨i, List.mem_of_getElem? hk, i.pending_subset p hpending⟩)
  -- What was noted before has passed, too, and of what has passed the report is the last.
  have hpassed : d' ∈ s.log .filter := (h.accounts p).symm.subset (List.mem_append_left _ hmem)
  obtain ⟨last, hlast', hle⟩ := last_of_mem h.inOrder hpassed hname
  rw [hlast] at hlast'
  cases hlast'
  refine hle.resolve_left fun heq => hnext.stamp_ne hstep hmem hname ?_
  rw [heq]

theorem inOrder_of_apart (h : Sound f ds s) (halone : s.Alone) (hordered : ∀ p, InOrder (s.log p))
    {ks : List Nat} (hapart : s.Apart ks) (p : Part) : InOrder ((s.run ks).log p) := by
  induction ks generalizing s with
  | nil => exact hordered p
  | cons k ks ih =>
      obtain ⟨hbegins, hrest⟩ := hapart
      exact ih (h.step k) (h.alone_step halone hbegins) (h.inOrder_step halone hordered k) hrest

end Sound

/-! ### What comes of it -/

/-- Reports of any number, taken in side by side by steps in any order, into a fleet whose stores agree. The
filter ends as if it had been asked about them in turn. The registry is turned back exactly if a report
was noted there after a later one of its agent. The stores agree in the end if none of them has noted a report
after a later one; and so it is if the reports of each agent are taken in one after the other. A task that is
left alone takes in its report as a single call does. -/
theorem outcome_of_interleaving {f : Fleet} (hf : f.Coherent) (ds : List Delivery) (ks : List Nat) :
    let s := start f ds
    let last := s.run ks
    (last.IsOver → last.fleet.filter = f.filter.offerAll (ds.map fun d => (d.1.name, .ofHeartbeat d.1))) ∧
      (s.NeverBack ks ↔ InOrder (last.log .registry)) ∧
      (last.IsOver → (∀ p, InOrder (last.log p)) → last.fleet.Coherent) ∧
      (s.Apart ks → ∀ p, InOrder (last.log p)) ∧
      ∀ h now, (fun s : Ingestion × Fleet => s.2.advance s.1)^[5] (.offered (h, now), f) =
        (.finished (h, now) (f.judge h now).1, (f.judge h now).2) := by
  intro s last
  have hstart : Sound f ds s := .start hf ds
  have hlast : Sound f ds last := hstart.run ks
  have halone : s.Alone := by
    intro d hd
    obtain ⟨i, hi, hpending⟩ := List.mem_flatMap.mp hd
    obtain ⟨d', -, rfl⟩ := List.mem_map.mp hi
    cases hpending
  exact ⟨hlast.filter_eq, hstart.neverBack_iff hf .nil ks, hlast.coherent hf,
    fun hapart => hstart.inOrder_of_apart halone (fun _ => .nil) hapart, iterate_advance f⟩

/-- Two reports of one agent one after the other, and those of another agent in between. -/
theorem outcome_of_interleaving_apart :
    let a : Heartbeat := { Heartbeat.ofName "a" with seqnum := 1 }
    let b : Heartbeat := { Heartbeat.ofName "b" with seqnum := 1 }
    let s := start (ofDefinitions [⟨"web", "fleet", .ofImage "nginx"⟩] .epoch)
      [(a, .epoch), (b, .epoch), ({ a with seqnum := 2 }, .epoch)]
    let ks := [0, 1, 1, 0, 0, 0, 1, 0, 2, 1, 2, 1, 2, 2, 2]
    s.Apart ks ∧ s.NeverBack ks ∧ (s.run ks).fleet.Coherent ∧
      (s.run ks).fleet.registry.stamp? "a" = some ⟨2, 0⟩ := by
  intro a b s ks
  have hcoherent : (ofDefinitions [⟨"web", "fleet", .ofImage "nginx"⟩] .epoch).Coherent :=
    .start (Desired.consistent_ofDefinitions ..) (Desired.ofDefinitions_agents ..)
  obtain ⟨-, hback, hover, hapart, -⟩ := outcome_of_interleaving hcoherent
    [(a, .epoch), (b, .epoch), ({ a with seqnum := 2 }, .epoch)] ks
  have hordered := hapart (by decide +kernel)
  exact ⟨by decide +kernel, hback.mpr (hordered .registry), hover (by decide +kernel) hordered,
    by decide +kernel⟩

/-- The first report of an agent has passed when the second one comes, and its task goes on when that of the
second one is over: the registry is turned back, and the filter holds another stamp from then on. -/
theorem interleaving_turns_back :
    let first : Heartbeat := { Heartbeat.ofName "a" with seqnum := 1 }
    let f := ofDefinitions [] .epoch
    let s := start f [(first, .epoch), ({ first with seqnum := 2 }, .epoch)]
    let ks := [0, 0, 1, 1, 1, 1, 1, 0, 0, 0]
    f.Coherent ∧ (s.run ks).IsOver ∧ ¬s.NeverBack ks ∧ ¬(s.run ks).fleet.Coherent ∧
      (s.run (ks.take 8)).fleet.registry.stamp? "a" = some ⟨2, 0⟩ ∧
      (s.run ks).fleet.registry.stamp? "a" = some ⟨1, 0⟩ ∧
      (s.run ks).fleet.filter.get? "a" = some ⟨2, 0⟩ := by
  intro first f s ks
  have hcoherent : f.Coherent :=
    .start (Desired.consistent_ofDefinitions ..) (Desired.ofDefinitions_agents ..)
  have hover : (s.run ks).IsOver := by decide +kernel
  have hregistry : (s.run ks).fleet.registry.stamp? "a" = some ⟨1, 0⟩ := by decide +kernel
  have hfilter : (s.run ks).fleet.filter.get? "a" = some ⟨2, 0⟩ := by decide +kernel
  have hbefore : (s.run (ks.take 8)).fleet.registry.stamp? "a" = some ⟨2, 0⟩ := by decide +kernel
  have hafter : (s.run (ks.take 8 ++ [0])).fleet.registry.stamp? "a" = some ⟨1, 0⟩ := by decide +kernel
  have hsplit : ks = ks.take 8 ++ 0 :: [0] := rfl
  -- The run is known by these facts, so that no step carries it out again.
  clear_value s
  refine ⟨hcoherent, hover, fun hback => ?_, fun hlast => ?_, hbefore, hregistry, hfilter⟩
  · rw [hsplit] at hback
    obtain ⟨t, ht, hnot⟩ := hback.noOlder (ks.take 8) 0 [0] "a" ⟨2, 0⟩ hbefore
    cases hafter.symm.trans ht
    exact hnot (by decide)
  · rw [hlast.get?_filter] at hfilter
    exact absurd (hregistry.symm.trans hfilter) (by decide)

end Ingestions

end EdgeFleet
