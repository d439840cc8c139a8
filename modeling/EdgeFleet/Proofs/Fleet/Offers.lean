import EdgeFleet.KeyMap.Lemmas
import EdgeFleet.Proofs.Fleet.Order
import Mathlib.Data.List.Induction

/-! # The filter and all that it was offered

The filter compares a stamp with the one that it has stored. This is the greatest of all stamps that were
seeded or offered for the agent, so the comparison is one with the whole history.
-/

namespace EdgeFleet

/-- A stamp that the filter is asked about, with its agent. -/
abbrev Offer := String × Stamp

/-- One of the stamps, and none of them comes after it. -/
structure Stamp.IsLast (s : Stamp) (ss : List Stamp) : Prop where
  mem : s ∈ ss
  not_before : ∀ t ∈ ss, ¬s.Before t

namespace Stamp

theorem IsLast.unique {s s' : Stamp} {ss : List Stamp} (h : s.IsLast ss) (h' : s'.IsLast ss) : s = s' :=
  eq_of_not_before (h.not_before s' h'.mem) (h'.not_before s h.mem)

theorem IsLast.of_perm {s : Stamp} {ss ss' : List Stamp} (h : s.IsLast ss) (hperm : ss.Perm ss') :
    s.IsLast ss' where
  mem := hperm.subset h.mem
  not_before t ht := h.not_before t (hperm.symm.subset ht)

theorem isLast_singleton (s : Stamp) : s.IsLast [s] where
  mem := List.mem_singleton_self s
  not_before _ ht := List.mem_singleton.mp ht ▸ s.not_before_self

/-- What comes after the last of some stamps comes after all of them. -/
theorem IsLast.before_iff {s : Stamp} {ss : List Stamp} (h : s.IsLast ss) (t : Stamp) :
    s.Before t ↔ ∀ u ∈ ss, u.Before t :=
  ⟨fun hbefore u hu => hbefore.of_not_before (h.not_before u hu), fun hall => hall s h.mem⟩

theorem IsLast.concat_later {s t : Stamp} {ss : List Stamp} (h : s.IsLast ss) (ht : s.Before t) :
    t.IsLast (ss ++ [t]) where
  mem := List.mem_append_right _ (List.mem_singleton_self t)
  not_before u hu := by
    rcases List.mem_append.mp hu with hu | hu
    · exact ((h.before_iff t).mp ht u hu).not_before
    · exact List.mem_singleton.mp hu ▸ t.not_before_self

theorem IsLast.concat_stale {s t : Stamp} {ss : List Stamp} (h : s.IsLast ss) (ht : ¬s.Before t) :
    s.IsLast (ss ++ [t]) where
  mem := List.mem_append_left _ h.mem
  not_before u hu := by
    rcases List.mem_append.mp hu with hu | hu
    · exact h.not_before u hu
    · exact List.mem_singleton.mp hu ▸ ht

end Stamp

namespace Filter

/-! ## One offer -/

theorem get?_seed (f : Filter) (agent a : String) (s : Stamp) :
    (f.seed agent s).get? a = if a = agent then some s else f.get? a :=
  f.stamps.get?_insert agent a s

theorem decide_of_accepted {f : Filter} {agent : String} {s : Stamp}
    (h : judge (f.get? agent) s = .accepted) : f.decide agent s = (.accepted, f.seed agent s) := by
  rw [get?] at h
  rw [decide, h]

theorem decide_of_stale {f : Filter} {agent : String} {s : Stamp}
    (h : judge (f.get? agent) s ≠ .accepted) : f.decide agent s = (judge (f.get? agent) s, f) := by
  rw [get?] at h ⊢
  rw [decide]
  cases hjudge : judge (f.stamps.get? agent) s with
  | accepted => exact absurd hjudge h
  | staleSeq => rfl
  | staleTimestamp => rfl

theorem decide_fst (f : Filter) (agent : String) (s : Stamp) :
    (f.decide agent s).1 = judge (f.get? agent) s := by
  by_cases h : judge (f.get? agent) s = .accepted
  · rw [decide_of_accepted h, h]
  · rw [decide_of_stale h]

theorem get?_decide (f : Filter) (agent a : String) (s : Stamp) :
    (f.decide agent s).2.get? a =
      if a = agent ∧ judge (f.get? agent) s = .accepted then some s else f.get? a := by
  by_cases h : judge (f.get? agent) s = .accepted
  · rw [decide_of_accepted h, get?_seed]
    simp only [h, and_true]
  · rw [decide_of_stale h, if_neg fun h' => h h'.2]

/-! ## Offers one after the other -/

def offerAll (f : Filter) (os : List Offer) : Filter := os.foldl (fun f o => (f.decide o.1 o.2).2) f

/-- What the filter says to each of some offers. -/
def decisions (f : Filter) : List Offer → List (Offer × Decision)
  | [] => []
  | o :: os => (o, (f.decide o.1 o.2).1) :: decisions (f.decide o.1 o.2).2 os

/-- The offers that pass. -/
def passed (f : Filter) (os : List Offer) : List Offer :=
  ((f.decisions os).filter fun d => d.2 = .accepted).map (·.1)

/-- The stamps that the filter knows of an agent: the stored one and those offered, whatever it said. -/
def known (f : Filter) (os : List Offer) (agent : String) : List Stamp :=
  (f.get? agent).toList ++ (os.filter fun o => o.1 = agent).map (·.2)

theorem offerAll_append (f : Filter) (os : List Offer) (o : Offer) :
    f.offerAll (os ++ [o]) = ((f.offerAll os).decide o.1 o.2).2 := by
  rw [offerAll, List.foldl_append]
  rfl

theorem decisions_append (f : Filter) (os : List Offer) (o : Offer) :
    f.decisions (os ++ [o]) = f.decisions os ++ [(o, ((f.offerAll os).decide o.1 o.2).1)] := by
  induction os generalizing f with
  | nil => rfl
  | cons o' os ih =>
      rw [List.cons_append, decisions, decisions, ih]
      rfl

theorem passed_append (f : Filter) (os : List Offer) (o : Offer) :
    f.passed (os ++ [o]) =
      f.passed os ++ if ((f.offerAll os).decide o.1 o.2).1 = .accepted then [o] else [] := by
  rw [passed, decisions_append, List.filter_append, List.map_append]
  by_cases h : ((f.offerAll os).decide o.1 o.2).1 = .accepted <;> simp [passed, h]

theorem known_append (f : Filter) (os : List Offer) (o : Offer) (agent : String) :
    f.known (os ++ [o]) agent = f.known os agent ++ if o.1 = agent then [o.2] else [] := by
  rw [known, known, List.filter_append, List.map_append, List.append_assoc]
  by_cases h : o.1 = agent <;> simp [h]

theorem known_perm (f : Filter) {os os' : List Offer} (h : os.Perm os') (agent : String) :
    (f.known os agent).Perm (f.known os' agent) :=
  ((h.filter _).map _).append_left _

/-! ## What is stored -/

/-- The stored stamp is the last of those known, and nothing is stored only where nothing is known. -/
theorem get?_offerAll_spec (f : Filter) (os : List Offer) (agent : String) :
    ((f.offerAll os).get? agent = none → f.known os agent = []) ∧
      ∀ s, (f.offerAll os).get? agent = some s → s.IsLast (f.known os agent) := by
  induction os using List.reverseRecOn with
  | nil =>
      rw [offerAll, List.foldl_nil, known]
      cases f.get? agent with
      | none => simp
      | some s => simpa using s.isLast_singleton
  | append_singleton os o ih =>
      obtain ⟨hnone, hlast⟩ := ih
      have hpasses := judge_eq_accepted_iff ((f.offerAll os).get? o.1) o.2
      rw [offerAll_append, get?_decide, known_append]
      by_cases hagent : o.1 = agent
      · subst hagent
        rw [if_pos rfl]
        by_cases haccepted : judge ((f.offerAll os).get? o.1) o.2 = .accepted
        · rw [if_pos ⟨rfl, haccepted⟩]
          refine ⟨nofun, fun s hs => ?_⟩
          cases hs
          cases hstored : (f.offerAll os).get? o.1 with
          | none =>
              rw [hnone hstored]
              exact o.2.isLast_singleton
          | some t => exact (hlast t hstored).concat_later (hpasses.mp haccepted t hstored)
        · rw [if_neg fun h => haccepted h.2]
          refine ⟨fun h => absurd (hpasses.mpr ?_) haccepted, fun s hs => ?_⟩
          · simp [h]
          · refine (hlast s hs).concat_stale fun hbefore => haccepted (hpasses.mpr ?_)
            simpa [hs] using hbefore
      · rw [if_neg fun h => hagent h.1.symm, if_neg hagent, List.append_nil]
        exact ⟨hnone, hlast⟩

theorem get?_offerAll_eq_some_iff (f : Filter) (os : List Offer) (agent : String) (s : Stamp) :
    (f.offerAll os).get? agent = some s ↔ s.IsLast (f.known os agent) := by
  obtain ⟨hnone, hlast⟩ := f.get?_offerAll_spec os agent
  refine ⟨hlast s, fun hs => ?_⟩
  cases hstored : (f.offerAll os).get? agent with
  | none =>
      have hmem := hs.mem
      rw [hnone hstored] at hmem
      cases hmem
  | some t => rw [(hlast t hstored).unique hs]

theorem offerAll_of_perm (f : Filter) {os os' : List Offer} (h : os.Perm os') :
    f.offerAll os = f.offerAll os' := by
  have hstamps : (f.offerAll os).stamps = (f.offerAll os').stamps := by
    apply KeyMap.ext
    intro agent
    refine Option.ext fun s => ?_
    change (f.offerAll os).get? agent = some s ↔ (f.offerAll os').get? agent = some s
    rw [get?_offerAll_eq_some_iff, get?_offerAll_eq_some_iff]
    have hknown := f.known_perm h agent
    exact ⟨fun hs => hs.of_perm hknown, fun hs => hs.of_perm hknown.symm⟩
  exact congrArg Filter.mk hstamps

/-! ## What passes -/

theorem accepted_iff (f : Filter) (os : List Offer) (agent : String) (s : Stamp) :
    ((f.offerAll os).decide agent s).1 = .accepted ↔ ∀ t ∈ f.known os agent, t.Before s := by
  rw [decide_fst, judge_eq_accepted_iff]
  obtain ⟨hnone, hlast⟩ := f.get?_offerAll_spec os agent
  cases hstored : (f.offerAll os).get? agent with
  | none => simp [hnone hstored]
  | some t => simpa using (hlast t hstored).before_iff s

/-- Two filters that agree on an agent say the same to its offers, whatever is offered for others. -/
theorem decisions_of_agent {f g : Filter} {agent : String} (h : f.get? agent = g.get? agent)
    (os : List Offer) :
    (f.decisions os).filter (fun d => d.1.1 = agent) = g.decisions (os.filter fun o => o.1 = agent) ∧
      (f.offerAll os).get? agent = (g.offerAll (os.filter fun o => o.1 = agent)).get? agent := by
  induction os generalizing f g with
  | nil => exact ⟨rfl, h⟩
  | cons o os ih =>
      by_cases hagent : o.1 = agent
      · subst hagent
        have hstep : (f.decide o.1 o.2).2.get? o.1 = (g.decide o.1 o.2).2.get? o.1 := by
          rw [get?_decide, get?_decide, h]
        obtain ⟨hdecisions, hget⟩ := ih hstep
        rw [List.filter_cons_of_pos (by simp), decisions, decisions, List.filter_cons_of_pos (by simp),
          hdecisions, decide_fst, decide_fst, h]
        exact ⟨rfl, hget⟩
      · have hstep : (f.decide o.1 o.2).2.get? agent = g.get? agent := by
          rw [get?_decide, if_neg fun h' => hagent h'.1.symm, h]
        obtain ⟨hdecisions, hget⟩ := ih hstep
        rw [List.filter_cons_of_neg (by simpa using hagent), decisions,
          List.filter_cons_of_neg (by simpa using hagent), hdecisions]
        exact ⟨rfl, hget⟩

/-- Of offers that come in the order of their stamps, each that is later than the stored one passes, and
it passes once. -/
theorem count_passed_of_sorted (f : Filter) {os : List Offer}
    (hsorted : os.Pairwise fun o o' => o.1 = o'.1 → ¬o'.2.Before o.2) (o : Offer) :
    (f.passed os).count o = if o ∈ os ∧ ∀ t, f.get? o.1 = some t → t.Before o.2 then 1 else 0 := by
  induction os using List.reverseRecOn with
  | nil => simp [passed, decisions]
  | append_singleton os o' ih =>
      obtain ⟨hsorted, -, hlast⟩ := List.pairwise_append.mp hsorted
      have hpasses : ((f.offerAll os).decide o'.1 o'.2).1 = .accepted ↔
          o' ∉ os ∧ ∀ t, f.get? o'.1 = some t → t.Before o'.2 := by
        rw [accepted_iff]
        constructor
        · intro h
          refine ⟨fun hmem => o'.2.not_before_self (h o'.2 ?_), fun t ht => h t ?_⟩
          · exact List.mem_append_right _ (List.mem_map.mpr ⟨o', by simp [hmem], rfl⟩)
          · exact List.mem_append_left _ (by simp [ht])
        · rintro ⟨hnew, hseed⟩ t ht
          rcases List.mem_append.mp ht with ht | ht
          · exact hseed t (by simpa using ht)
          · obtain ⟨e, he, rfl⟩ := List.mem_map.mp ht
            obtain ⟨he, hname⟩ := List.mem_filter.mp he
            have hname : e.1 = o'.1 := by simpa using hname
            -- An earlier offer with the same stamp would be this offer.
            by_contra hnot
            have hsame : e.2 = o'.2 :=
              Stamp.eq_of_not_before hnot (hlast e he o' (List.mem_singleton_self o') hname)
            exact hnew (Prod.ext hname hsame ▸ he)
      rw [passed_append, List.count_append, ih hsorted]
      simp only [hpasses, List.mem_append, List.mem_singleton]
      by_cases ho : o = o'
      · subst ho
        split_ifs <;> simp_all
      · have hother : ∀ p : Prop, [Decidable p] → (if p then [o'] else []).count o = 0 := by
          intro p _
          split_ifs <;> simp [Ne.symm ho]
        simp only [hother, ho, or_false, Nat.add_zero]

/-! ## The whole history -/

/-- Whatever is stored at first and whatever is offered, for any agents and in any order: an offer passes
exactly when it is later than all that the filter knows of its agent, the last of these is what is stored,
a refusal tells of it and changes nothing, and offers for other agents do not matter. So the order of the
offers does not matter for what is stored in the end, and offers in the order of their stamps pass each
once, unless they are no later than what was stored at first. -/
theorem decides_by_history (f : Filter) (os : List Offer) :
    let g := f.offerAll os
    (∀ agent s, (g.decide agent s).1 = .accepted ↔ ∀ t ∈ f.known os agent, t.Before s) ∧
      (∀ agent s, g.get? agent = some s ↔ s.IsLast (f.known os agent)) ∧
      (∀ agent s, (g.decide agent s).1 ≠ .accepted → ∃ t, g.get? agent = some t ∧
        g.decide agent s =
          (if s.seqnum < t.seqnum then .staleSeq t.seqnum else .staleTimestamp t.timestamp, g)) ∧
      (∀ agent, (f.decisions os).filter (fun d => d.1.1 = agent) =
          f.decisions (os.filter fun o => o.1 = agent) ∧
        g.get? agent = (f.offerAll (os.filter fun o => o.1 = agent)).get? agent) ∧
      (∀ os', os.Perm os' → f.offerAll os' = g) ∧
      ((os.Pairwise fun o o' => o.1 = o'.1 → ¬o'.2.Before o.2) → ∀ o, (f.passed os).count o =
        if o ∈ os ∧ ∀ t, f.get? o.1 = some t → t.Before o.2 then 1 else 0) := by
  intro g
  refine ⟨f.accepted_iff os, f.get?_offerAll_eq_some_iff os, fun agent s hstale => ?_,
    fun agent => decisions_of_agent rfl os, fun os' h => (f.offerAll_of_perm h).symm,
    f.count_passed_of_sorted⟩
  rw [decide_fst] at hstale
  rw [decide_of_stale hstale]
  cases hstored : g.get? agent with
  | none =>
      rw [hstored] at hstale
      exact absurd rfl hstale
  | some t =>
      have hnot : ¬t.Before s := fun hbefore =>
        hstale ((judge_eq_accepted_iff _ _).mpr fun u hu => by
          rw [hstored] at hu
          exact Option.some.inj hu ▸ hbefore)
      exact ⟨t, rfl, by rw [judge_some, if_neg hnot]⟩

end Filter

end EdgeFleet
