import EdgeFleet.Proofs.Agent.Inbound
import EdgeFleet.Proofs.Fleet.Forms
import EdgeFleet.Proofs.Text.Numerals

/-! # No format loses anything

Whatever is sent or stored can be read, and it is read as what was written. Different values therefore
have different written forms, and what has been read once stays the same however often it is written
and read again.
-/

namespace EdgeFleet

open Json (Faithful Tame fields?_record lookup_omitIf lookup_whenSome forall_mem_omitIf
  forall_mem_whenSome keys_omitIf keys_whenSome)

/-! ## Specifications, commands and definitions -/

theorem WorkloadSpec.faithful : Faithful 2 WorkloadSpec.toJson WorkloadSpec.ofJson? where
  tame s := Tame.record fun m hm => by
    simp only [List.mem_cons, List.mem_append] at hm
    rcases hm with rfl | (hm | hm) | hm
    · exact (Tame.text _).mono (by decide)
    · exact forall_mem_omitIf (P := fun m => Tame 1 m.2) (Faithful.text.list.tame s.command) m hm
    · exact forall_mem_omitIf (P := fun m => Tame 1 m.2) (Faithful.text.map.tame s.env) m hm
    · exact forall_mem_omitIf (P := fun m => Tame 1 m.2) (Faithful.text.map.tame s.nodeSelector) m hm
  reads s := by
    have hkeys := ((((keys_omitIf s.command.isEmpty "command" (Json.ofList Json.text s.command)).append
      (keys_omitIf s.env.isEmpty "env" (Json.ofMap Json.text s.env))).append
      (keys_omitIf s.nodeSelector.isEmpty "nodeSelector" (Json.ofMap Json.text s.nodeSelector))).append_left
        ["image"]).nodup (by decide)
    have hcommand := Faithful.text.list.defaulted_of (a := s.command) List.isEmpty_iff.mp
    have henv := Faithful.text.map.defaulted_of (a := s.env) (KeyMap.isEmpty_iff _).mp
    have hselector := Faithful.text.map.defaulted_of (a := s.nodeSelector) (KeyMap.isEmpty_iff _).mp
    rw [WorkloadSpec.ofJson?, WorkloadSpec.toJson, fields?_record (by simpa using hkeys)]
    simp [-List.isEmpty_iff, List.lookup_cons, List.lookup_append, lookup_omitIf, hcommand, henv,
      hselector]

theorem WorkloadCommand.faithful : Faithful 3 WorkloadCommand.toJson WorkloadCommand.ofJson? where
  tame c := Tame.record fun m hm => by
    simp only [List.mem_append, List.mem_cons, List.not_mem_nil, or_false] at hm
    rcases hm with ((rfl | rfl | rfl) | hm) | hm
    · exact (Tame.text _).mono (by decide)
    · exact (Tame.text _).mono (by decide)
    · exact (Tame.text _).mono (by decide)
    · exact forall_mem_whenSome (P := fun m => Tame 2 m.2) WorkloadSpec.faithful.tame c.spec m hm
    · exact forall_mem_whenSome (P := fun m => Tame 2 m.2)
        (fun _ => (Tame.text _).mono (by decide)) c.deletedAt m hm
  reads c := by
    have hkeys := (((keys_whenSome "spec" WorkloadSpec.toJson c.spec).append
      (keys_whenSome "deleteTimestamp" (fun t => .text t.render) c.deletedAt)).append_left
        ["hash", "name", "namespace"]).nodup (by decide)
    have hspec := WorkloadSpec.faithful.defaulted_none
      (by simp [WorkloadSpec.toJson, Json.record]) c.spec
    have hdeleted := faithful_timestamp.defaulted_none (by simp [Json.text]) c.deletedAt
    rw [WorkloadCommand.ofJson?, WorkloadCommand.toJson, fields?_record (by simpa using hkeys)]
    simp [List.lookup_cons, List.lookup_append, lookup_whenSome, hspec, hdeleted]

theorem WorkloadDefinition.faithful :
    Faithful 3 WorkloadDefinition.toJson WorkloadDefinition.ofJson? where
  tame d := Tame.record fun m hm => by
    simp only [List.mem_cons, List.not_mem_nil, or_false] at hm
    rcases hm with rfl | rfl | rfl
    · exact (Tame.text _).mono (by decide)
    · exact (Tame.text _).mono (by decide)
    · exact WorkloadSpec.faithful.tame d.spec
  reads d := by
    have hfields : Json.fields? ["name", "namespace", "spec"] d.toJson =
        some [some (.text d.name), some (.text d.ns), some d.spec.toJson] :=
      fields?_record (by simp) _
    unfold WorkloadDefinition.ofJson?
    rw [hfields, Option.bind_eq_bind, Option.bind_some]
    simp [WorkloadSpec.faithful.reads]

/-! ## Rows of the listing -/

theorem NodeRow.faithful : Faithful 1 NodeRow.toJson NodeRow.ofJson? where
  tame r := Tame.record fun m hm => by
    simp only [List.mem_cons, List.not_mem_nil, or_false] at hm
    rcases hm with rfl | rfl | rfl <;> exact Tame.text _
  reads r := by
    have hfields : Json.fields? ["name", "state", "lastObserved"] r.toJson =
        some [some (.text r.name), some r.state.toJson, some (.text r.lastObserved.render)] :=
      fields?_record (by simp) _
    unfold NodeRow.ofJson?
    rw [hfields, Option.bind_eq_bind, Option.bind_some]
    simp [(AgentState.faithful .direct).reads, faithful_timestamp.reads]

/-! ## Formats -/

/-- What is written is read as what is kept of it. Values of which different things are kept are
written differently, and what was read from anywhere is read the same after it is written again. -/
structure Lossless {α : Type} (encode : α → Bytes) (decode? : Bytes → Option α) (kept : α → α) :
    Prop where
  reads : ∀ a, decode? (encode a) = some (kept a)
  separates : ∀ a b, encode a = encode b → kept a = kept b
  settles : ∀ payload a, decode? payload = some a → decode? (encode a) = some a

namespace Lossless

variable {α : Type} {encode : α → Bytes} {decode? : Bytes → Option α} {kept : α → α}

/-- It is enough that what is written is read, and that all that can be read is kept. -/
theorem of_reads (hreads : ∀ a, decode? (encode a) = some (kept a))
    (hkept : ∀ payload a, decode? payload = some a → kept a = a) : Lossless encode decode? kept where
  reads := hreads
  separates a b h := Option.some.inj <| calc
    some (kept a) = decode? (encode a) := (hreads a).symm
    _ = decode? (encode b) := congrArg decode? h
    _ = some (kept b) := hreads b
  settles payload a h := by rw [hreads, hkept payload a h]

end Lossless

/-- A faithful form of a whole payload keeps everything. -/
theorem Json.Faithful.lossless {α : Type} {n : Nat} {f : α → Json} {g : Json → Option α}
    (h : Faithful n f g) : Lossless (fun a => (f a).render) (fun bs => (parse? bs).bind g) id :=
  .of_reads h.bind_parse? fun _ _ _ => rfl

/-- The written form of a map of agents when its entries are listed in the order of `es`. -/
def AgentMap.encodeInOrder (es : List (String × AgentEntry)) : Bytes :=
  (Json.record (es.map fun e => (e.1, e.2.toJson))).render

/-- The order in which the agents are listed does not matter to the reader. -/
theorem AgentMap.decode?_encodeInOrder {m : AgentMap} {es : List (String × AgentEntry)}
    (h : es.Perm m.toList) : decode? (encodeInOrder es) = some m := by
  have htame : Tame 5 (Json.record (es.map fun e => (e.1, e.2.toJson))) := Tame.record fun e he => by
    obtain ⟨e', -, rfl⟩ := List.mem_map.mp he
    exact e'.2.tame
  have hentries := AgentEntry.faithful.entries es
  rw [decode?, encodeInOrder, Json.parse?_render htame.plain, Option.bind_some, ofJson?, Json.record,
    Json.asMap?, List.map_map]
  simp only [Function.comp_def]
  rw [hentries, Option.map_some, KeyMap.ofList_of_perm h]

/-- An acknowledgement that is read does not name its agent. -/
theorem Ack.agent_of_decode? {payload : Bytes} {k : Ack} (h : decode? payload = some k) :
    k.agent = "" := by
  rw [decode?, Option.bind_eq_some_iff] at h
  obtain ⟨j, -, hj⟩ := h
  simp only [ofJson?, Option.bind_eq_bind, Option.bind_eq_some_iff] at hj
  obtain ⟨fields, -, hfields⟩ := hj
  split at hfields
  · simp only [Option.bind_eq_some_iff] at hfields
    obtain ⟨identifier, -, accepted, -, hk⟩ := hfields
    cases hk
    rfl
  · cases hfields

/-! ## Digests in writing -/

theorem Hex.digit_inj {m n : Nat} (hm : m < 16) (hn : n < 16) (h : digit m = digit n) : m = n := by
  have hvalue := value?_digit hm
  rw [h, value?_digit hn] at hvalue
  exact (Option.some.inj hvalue).symm

theorem Hex.encode_injective {as bs : Bytes} (h : encode as = encode bs) : as = bs := by
  replace h := String.ofList_injective h
  induction as generalizing bs with
  | nil =>
      cases bs with
      | nil => rfl
      | cons b bs => cases h
  | cons a as ih =>
      cases bs with
      | nil => cases h
      | cons b bs =>
          have ha := a.toNat_lt
          have hb := b.toNat_lt
          simp only [List.flatMap_cons, List.cons_append, List.nil_append, List.cons.injEq] at h
          obtain ⟨hhigh, hlow, hrest⟩ := h
          have hhigh := digit_inj (by omega) (by omega) hhigh
          have hlow := digit_inj (by omega) (by omega) hlow
          have hab : a = b := UInt8.toNat_inj.mp (by omega)
          rw [hab, ih hrest]

/-- Specifications of one hash are the same, unless their written forms are two different messages
of one digest. -/
theorem WorkloadSpec.eq_or_collision {s s' : WorkloadSpec} (h : s.hash = s'.hash) :
    s = s' ∨ s.encode ≠ s'.encode ∧ Sha256.digest s.encode = Sha256.digest s'.encode := by
  have hdigest : Sha256.digest s.encode = Sha256.digest s'.encode := Hex.encode_injective h
  by_cases hsame : s.encode = s'.encode
  · exact .inl (WorkloadSpec.faithful.lossless.separates s s' hsame)
  · exact .inr ⟨hsame, hdigest⟩

/-! ## All formats -/

/-- Every format of the fleet is lossless, the map of the agents in any order of its entries. Of an
acknowledgement all is kept but the agent, which the topic tells. Hashes therefore tell specifications
apart as far as the digest does. -/
theorem formats_lossless :
    Lossless Heartbeat.encode Heartbeat.decode? id ∧
      Lossless WorkloadCommand.encode WorkloadCommand.decode? id ∧
      Lossless WorkloadSpec.encode WorkloadSpec.decode? id ∧
      Lossless WorkloadDefinition.encode WorkloadDefinition.decode? id ∧
      Lossless NodeRow.encode NodeRow.decode? id ∧
      Lossless Chunk.encode Chunk.decode? id ∧
      Lossless AgentMap.encode AgentMap.decode? id ∧
      (∀ (m : AgentMap) es, es.Perm m.toList →
        AgentMap.decode? (AgentMap.encodeInOrder es) = some m) ∧
      Lossless Ack.encode Ack.decode? (fun k => { k with agent := "" }) ∧
      ∀ s s' : WorkloadSpec, s.hash = s'.hash →
        s = s' ∨ s.encode ≠ s'.encode ∧ Sha256.digest s.encode = Sha256.digest s'.encode := by
  refine ⟨Heartbeat.faithful.lossless, WorkloadCommand.faithful.lossless,
    WorkloadSpec.faithful.lossless, WorkloadDefinition.faithful.lossless, NodeRow.faithful.lossless,
    Chunk.faithful.lossless, .of_reads AgentMap.decode?_encode fun _ _ _ => rfl,
    fun _ _ => AgentMap.decode?_encodeInOrder, .of_reads Ack.decode?_encode ?_, fun _ _ => WorkloadSpec.eq_or_collision⟩
  intro payload k hk
  rw [← Ack.agent_of_decode? hk]

end EdgeFleet
