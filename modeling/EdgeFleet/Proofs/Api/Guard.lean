import EdgeFleet.Api.Router

/-! # What the key guards

Who does not bring the key can read, and nothing else: no request of such a sender moves the controller, and what
the sender is told of a refused request tells nothing of the controller.
-/

namespace EdgeFleet.Api

variable {σ τ : Type} {env : Option Bytes} {c : Controller σ} {r : Request} {now : Timestamp}

/-! ## Admission -/

/-- The first header for the key is not there, cannot be read, or has another value. -/
def Lacks (key : Bytes) (r : Request) : Prop :=
  ∀ v, r.header? "x-api-key" = some v → isReadable v = true → v ≠ key

theorem isAdmitted_eq_false_iff :
    isAdmitted env r = false ↔ r.method ≠ .get ∧ keyOf env ≠ "" ∧ Lacks (utf8 (keyOf env)) r := by
  simp only [isAdmitted, Lacks, decide_eq_false_iff_not, not_or, Option.any_eq_true,
    decide_eq_true_eq, not_exists, not_and, ne_eq]

theorem keyOf_of_text {key : String} (h : env.bind text? = some key) : keyOf env = key := by
  rw [keyOf, h, Option.getD_some]

/-- Octets that are no text are taken for no key at all. -/
theorem respond_of_not_text (h : env.bind text? = none) (c : Controller σ) (r : Request) (now : Timestamp) :
    respond env c r now = respond none c r now := by
  have hkey : keyOf env = keyOf none := by rw [keyOf, h, keyOf, Option.bind_none]
  have hadmits : isAdmitted env r = isAdmitted none r := by simp only [isAdmitted, hkey]
  rw [respond, respond, hadmits]

/-! ## Changes -/

/-- A request that can be carried out, with the key of its definition, the commands and the new definitions. -/
inductive Asks (c : Controller σ) (r : Request) (now : Timestamp) : String → List Outbound → Desired → Prop
  | put {w} (hmethod : r.method = .put) (hroute : Route.ofTarget? r.target = some .workloads)
      (hbody : definitionOf r = .ok w) :
      Asks c r now w.key (c.fleet.desired.define w now).1 (c.fleet.desired.define w now).2
  | delete {s₁ s₂ ns name commands desired} (hmethod : r.method = .delete)
      (hroute : Route.ofTarget? r.target = some (.workload s₁ s₂))
      (hns : segmentText? s₁ = some ns) (hname : segmentText? s₂ = some name)
      (hheld : c.fleet.desired.retract ns name now = some (commands, desired)) :
      Asks c r now (WorkloadDefinition.mk name ns (.ofImage "")).key commands desired

theorem answer_cases {route : Route} (hroute : Route.ofTarget? r.target = some route) (c : Controller σ)
    (now : Timestamp) :
    (answer c route r now).2 = c ∨
      ∃ k commands desired, Asks c r now k commands desired ∧
        answer c route r now = answerChange c k commands desired := by
  unfold answer
  split
  · exact .inl rfl
  · exact .inl rfl
  · next hmethod =>
    unfold putWorkload
    split
    · exact .inl rfl
    · next w hbody => exact .inr ⟨_, _, _, .put hmethod hroute hbody, rfl⟩
  · next s₁ s₂ hmethod =>
    unfold deleteWorkload
    split
    · next ns name hns hname =>
      split
      · exact .inl rfl
      · next hheld => exact .inr ⟨_, _, _, .delete hmethod hroute hns hname hheld, rfl⟩
    · exact .inl rfl
  · exact .inl rfl

/-- A request is carried out, or leaves the controller as it was. -/
theorem respond_cases (env : Option Bytes) (c : Controller σ) (r : Request) (now : Timestamp) :
    (respond env c r now).2 = c ∨ isAdmitted env r = true ∧
      ∃ k commands desired, Asks c r now k commands desired ∧
        respond env c r now = answerChange c k commands desired := by
  unfold respond
  split
  · exact .inl rfl
  · next route hroute =>
    split
    · split
      · next hadmitted => exact (answer_cases hroute c now).imp_right fun h => ⟨hadmitted, h⟩
      · exact .inl rfl
    · exact .inl rfl

theorem respond_of_get (h : r.method = .get) : (respond env c r now).2 = c := by
  rcases respond_cases env c r now with hsame | ⟨-, _, _, _, hasks, -⟩
  · exact hsame
  · cases hasks with
    | put hmethod => cases h.symm.trans hmethod
    | delete hmethod => cases h.symm.trans hmethod

theorem definitionOf_eq_ok {w : WorkloadDefinition} (h : definitionOf r = .ok w) :
    WorkloadDefinition.decode? r.body = some w ∧ w.name ≠ "" ∧ w.ns ≠ "" := by
  unfold definitionOf at h
  split at h
  · cases h
  · split at h
    · next w' hdecoded =>
      split at h
      · cases h
      · next hnamed =>
        cases h
        exact ⟨hdecoded, not_or.mp hnamed⟩
    · split at h <;> cases h

theorem respond_of_put (h : r.method = .put)
    (hbody : ∀ w, WorkloadDefinition.decode? r.body = some w → w.name = "" ∨ w.ns = "") :
    (respond env c r now).2 = c := by
  rcases respond_cases env c r now with hsame | ⟨-, _, _, _, hasks, -⟩
  · exact hsame
  · cases hasks with
    | delete hmethod => cases h.symm.trans hmethod
    | put _ _ hok =>
        obtain ⟨hdecoded, hname, hns⟩ := definitionOf_eq_ok hok
        exact absurd (hbody _ hdecoded) (not_or.mpr ⟨hname, hns⟩)

theorem exists_of_retract {d d' : Desired} {ns name : String} {commands : List Outbound}
    (h : d.retract ns name now = some (commands, d')) :
    ∃ w ∈ d.definitions.values, w.ns = ns ∧ w.name = name := by
  obtain ⟨key, hkey, -⟩ := Option.map_eq_some_iff.mp h
  obtain ⟨w, hfound, -⟩ := Option.map_eq_some_iff.mp hkey
  exact ⟨w, List.mem_of_find?_eq_some hfound, by simpa using List.find?_some hfound⟩

theorem respond_of_delete (h : r.method = .delete)
    (hunknown : ∀ s₁ s₂, Route.ofTarget? r.target = some (.workload s₁ s₂) →
      ∀ w ∈ c.fleet.desired.definitions.values, ¬(segmentText? s₁ = some w.ns ∧ segmentText? s₂ = some w.name)) :
    (respond env c r now).2 = c := by
  rcases respond_cases env c r now with hsame | ⟨-, _, _, _, hasks, -⟩
  · exact hsame
  · cases hasks with
    | put hmethod => cases h.symm.trans hmethod
    | delete _ hroute hns hname hheld =>
        obtain ⟨w, hw, rfl, rfl⟩ := exists_of_retract hheld
        exact absurd ⟨hns, hname⟩ (hunknown _ _ hroute w hw)

/-! ## Refusals -/

theorem respond_of_not_isAdmitted (h : isAdmitted env r = false) (c : Controller σ) (now : Timestamp) :
    (respond env c r now).1.status = 401 ∧ (respond env c r now).2 = c := by
  unfold respond
  rw [h]
  cases Route.ofTarget? r.target with
  | none => exact ⟨rfl, rfl⟩
  | some route => by_cases hmethod : r.method ∈ route.methods <;> simp [hmethod, Response.bare]

/-- Whoever is refused is told the same by every controller. -/
theorem response_of_not_isAdmitted (h : isAdmitted env r = false) (c : Controller σ) (d : Controller τ)
    (now now' : Timestamp) : (respond env d r now').1 = (respond env c r now).1 := by
  unfold respond
  rw [h]
  cases Route.ofTarget? r.target with
  | none => rfl
  | some route => by_cases hmethod : r.method ∈ route.methods <;> simp [hmethod]

/-! ## Requests one after the other -/

/-- Answers requests one after the other; yields each with its answer. -/
def serve (env : Option Bytes) (c : Controller σ) :
    List (Request × Timestamp) → List (Request × Response) × Controller σ
  | [] => ([], c)
  | (r, now) :: rs =>
    let (response, c) := respond env c r now
    let (answers, c) := serve env c rs
    ((r, response) :: answers, c)

/-- A request that may leave a trace: it is let in, and not only to read. -/
def mayChange (env : Option Bytes) (r : Request) : Bool := r.method ≠ .get ∧ isAdmitted env r = true

theorem respond_of_not_mayChange (h : mayChange env r = false) : (respond env c r now).2 = c := by
  by_cases hget : r.method = .get
  · exact respond_of_get hget
  · have hrefused : isAdmitted env r = false := by simpa [mayChange, hget] using h
    exact (respond_of_not_isAdmitted hrefused c now).2

/-- The controller is where the requests that may leave a trace have brought it; the others could be left out. -/
theorem serve_mayChange (env : Option Bytes) (c : Controller σ) (rs : List (Request × Timestamp)) :
    (serve env c (rs.filter fun e => mayChange env e.1)).2 = (serve env c rs).2 := by
  induction rs generalizing c with
  | nil => rfl
  | cons e rs ih =>
      obtain ⟨r, now⟩ := e
      cases h : mayChange env r with
      | true => simp [serve, h, ih]
      | false => simp [serve, h, ih, respond_of_not_mayChange h]

/-- Nobody who is admitted can tell whether others were refused. -/
theorem serve_isAdmitted (env : Option Bytes) (c : Controller σ) (rs : List (Request × Timestamp)) :
    (serve env c (rs.filter fun e => isAdmitted env e.1)).1 =
      (serve env c rs).1.filter fun e => isAdmitted env e.1 := by
  induction rs generalizing c with
  | nil => rfl
  | cons e rs ih =>
      obtain ⟨r, now⟩ := e
      cases h : isAdmitted env r with
      | true => simp [serve, h, ih]
      | false =>
          have hsame := (respond_of_not_isAdmitted h c now).2
          simp [serve, h, ih, hsame]

/-! ## Plain segments -/

theorem percentDecode_of_not_mem {bs : Bytes} (h : 37 ∉ bs) : percentDecode bs = bs := by
  induction bs with
  | nil => simp [percentDecode]
  | cons b bs ih =>
      rw [List.mem_cons, not_or] at h
      rw [percentDecode, ih h.2]
      exact fun _ _ _ heq => absurd heq.symm h.1

/-- A segment without a percent sign stands for itself. -/
theorem segmentText?_of_not_mem {s : String} (h : 37 ∉ utf8 s) : segmentText? s = some s := by
  rw [segmentText?, percentDecode_of_not_mem h, text?_utf8]

/-! ## The guard -/

/-- The request is refused, moves nothing, and is told nothing that depends on the controller. -/
def Refuses (env : Option Bytes) (c : Controller σ) (r : Request) (now : Timestamp) : Prop :=
  (respond env c r now).1.status = 401 ∧ (respond env c r now).2 = c ∧
    ∀ {τ : Type} (d : Controller τ) (now' : Timestamp), (respond env d r now').1 = (respond env c r now).1

/-- When the environment holds a key, a request that is no plain read and does not bring it is refused if the key
is text; if it is not, the request is answered as if there were no key. A plain read moves nothing, nor does a
definition that cannot be read or lacks a name, nor the removal of what is not there, whether let in or not. Of
requests one after the other, those that only read or are refused could be left out, and nobody who is admitted
can tell whether others were refused. -/
theorem guards_changes (env : Option Bytes) (c : Controller σ) (r : Request) (now : Timestamp) :
    (∀ value, env = some value → value ≠ [] → r.method ≠ .get → Lacks value r →
      ((text? value).isSome → Refuses env c r now) ∧
      (text? value = none → respond env c r now = respond none c r now)) ∧
    (r.method = .get → (respond env c r now).2 = c) ∧
    (r.method = .put →
      (∀ w, WorkloadDefinition.decode? r.body = some w → w.name = "" ∨ w.ns = "") →
        (respond env c r now).2 = c) ∧
    (r.method = .delete →
      (∀ s₁ s₂, Route.ofTarget? r.target = some (.workload s₁ s₂) →
        ∀ w ∈ c.fleet.desired.definitions.values,
          ¬(segmentText? s₁ = some w.ns ∧ segmentText? s₂ = some w.name)) →
        (respond env c r now).2 = c) ∧
    ∀ rs : List (Request × Timestamp),
      (serve env c (rs.filter fun e => mayChange env e.1)).2 = (serve env c rs).2 ∧
      (serve env c (rs.filter fun e => isAdmitted env e.1)).1 =
        (serve env c rs).1.filter fun e => isAdmitted env e.1 := by
  refine ⟨fun value henv hvalue hmethod hlacks => ⟨fun htext => ?_, fun hnone => ?_⟩, respond_of_get,
    respond_of_put, respond_of_delete, fun rs => ⟨serve_mayChange env c rs, serve_isAdmitted env c rs⟩⟩
  · obtain ⟨key, hkey⟩ := Option.isSome_iff_exists.mp htext
    obtain rfl : value = utf8 key := (utf8_of_text? hkey).symm
    have hset : keyOf env = key := keyOf_of_text (by rw [henv, Option.bind_some, hkey])
    have hnonempty : keyOf env ≠ "" := by
      rintro hempty
      rw [hset] at hempty
      exact hvalue (hempty ▸ rfl)
    have hrefused := isAdmitted_eq_false_iff.mpr ⟨hmethod, hnonempty, hset.symm ▸ hlacks⟩
    obtain ⟨hstatus, hsame⟩ := respond_of_not_isAdmitted hrefused c now
    exact ⟨hstatus, hsame, fun d now' => response_of_not_isAdmitted hrefused c d now now'⟩
  · exact respond_of_not_text (by rw [henv, Option.bind_some, hnone]) c r now

/-- A removal with another key, and the removal of what is not there. -/
theorem guards_changes_removals :
    let now : Timestamp := ⟨2024, 1, 1, 0, 0, 0, 0, 0, by decide, by decide⟩
    let c : Controller Unit :=
      .start (.ofDefinitions [⟨"web", "shop", .ofImage "nginx"⟩] now) () ⟨"fleet", .gzip, 1024, ⟨1, 1, 0⟩, 60⟩ 8
    let refused : Request :=
      ⟨.delete, "/workloads/shop/web", [("X-Api-Key", utf8 "wrong"), ("x-api-key", utf8 "k")], []⟩
    let unknown : Request := ⟨.delete, "/workloads/web/shop", [("x-api-key", utf8 "k")], []⟩
    (respond (some (utf8 "k")) c refused now).1.status = 401 ∧ (respond (some (utf8 "k")) c refused now).2 = c ∧
      (respond (some (utf8 "k")) c unknown now).2 = c := by
  intro now c refused unknown
  have hlacks : Lacks (utf8 "k") refused := by
    intro v hv _ hkey
    have hfirst : refused.header? "x-api-key" = some (utf8 "wrong") := by decide
    rw [hfirst] at hv
    exact absurd (Option.some.inj hv ▸ hkey) (by decide)
  have hunknown : ∀ s₁ s₂, Route.ofTarget? unknown.target = some (.workload s₁ s₂) →
      ∀ w ∈ c.fleet.desired.definitions.values, ¬(segmentText? s₁ = some w.ns ∧ segmentText? s₂ = some w.name) := by
    have hroute : Route.ofTarget? unknown.target = some (.workload "web" "shop") := by decide
    have hsegment : segmentText? "web" = some "web" := segmentText?_of_not_mem (by decide)
    have hvalues : c.fleet.desired.definitions.values = [⟨"web", "shop", .ofImage "nginx"⟩] := by decide
    intro s₁ s₂ h w hw
    rw [hroute] at h
    cases h
    rw [hvalues, List.mem_singleton] at hw
    subst hw
    rw [hsegment]
    decide
  have htext : (text? (utf8 "k")).isSome := by rw [text?_utf8]; rfl
  have hrefused := ((guards_changes (some (utf8 "k")) c refused now).1 _ rfl (by decide) (by decide) hlacks).1 htext
  exact ⟨hrefused.1, hrefused.2.1, (guards_changes (some (utf8 "k")) c unknown now).2.2.2.1 rfl hunknown⟩

/-- A key in another encoding than UTF-8 guards nothing: a definition is taken without any. -/
theorem unreadable_key_guards_nothing :
    let key : Bytes := [99, 108, 233]
    let c : Controller Unit :=
      .start (.ofDefinitions [] .epoch) () ⟨"fleet", .gzip, 1024, ⟨1, 1, 0⟩, 60⟩ 8
    let r : Request := ⟨.put, "/workloads", [("content-type", utf8 "application/json")],
      utf8 "\x7b\"name\":\"web\",\"namespace\":\"fleet\",\"spec\":\x7b\"image\":\"nginx\"\x7d\x7d"⟩
    Lacks key r ∧ (respond (some key) c r .epoch).1.status = 200 ∧
      (respond (some key) c r .epoch).2.fleet.desired.definitions.keys = ["fleet-fleetset-web"] := by
  intro key c r
  refine ⟨?_, by decide +kernel, by decide +kernel⟩
  have hnone : r.header? "x-api-key" = none := by decide
  intro v hv
  rw [hnone] at hv
  cases hv

end EdgeFleet.Api
