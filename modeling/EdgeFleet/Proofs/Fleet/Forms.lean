import EdgeFleet.Fleet.Registry
import EdgeFleet.Proofs.Json.Records
import EdgeFleet.Proofs.Text.Octets
import EdgeFleet.Proofs.Time.Rfc3339
import EdgeFleet.Snapshot.Chunk

/-! # The data of a fleet in written form

An entry of the registry is written as one flat record, its report and the time side by side, and
read through a buffer. Reading gives back the whole map of agents, and each chunk of a snapshot.
-/

namespace EdgeFleet

open Json (Faithful Tame fields?_record lookup_omitIf lookup_whenSome forall_mem_omitIf
  forall_mem_whenSome keys_omitIf keys_whenSome)

/-! ## Numbers and times -/

theorem Json.asNatBelow?_nat {bound n : Nat} (h : n < bound) :
    Json.asNatBelow? bound (.nat n) = some n := by
  rw [Json.asNatBelow?, if_pos ⟨Int.natCast_nonneg n, Int.ofNat_lt.mpr h⟩]
  rfl

theorem asUInt64?_nat (n : UInt64) : asUInt64? (.nat n.toNat) = some n := by
  simp [asUInt64?, Json.asNatBelow?_nat n.toNat_lt]

theorem asUInt32?_nat (n : UInt32) : asUInt32? (.nat n.toNat) = some n := by
  simp [asUInt32?, Json.asNatBelow?_nat n.toNat_lt]

theorem tame_uint64 (n : UInt64) : Tame 0 (.nat n.toNat) :=
  Tame.int (by simpa using n.toNat_lt)

theorem tame_uint32 (n : UInt32) : Tame 0 (.nat n.toNat) :=
  Tame.int (by have := n.toNat_lt; simp; omega)

theorem faithful_int64 :
    Faithful 0 (fun n : Int64 => .int n.toInt) (fun j => j.asInt64?.map Int64.ofInt) where
  tame n := Tame.int (by
    have := n.le_toInt
    have := n.toInt_lt
    omega)
  reads n := by
    have hbounds : Int64.minValue.toInt ≤ n.toInt ∧ n.toInt ≤ Int64.maxValue.toInt :=
      ⟨n.minValue_le_toInt, n.toInt_le⟩
    rw [Json.asInt64?, if_pos hbounds, Option.map_some, Int64.ofInt_toInt]

theorem faithful_timestamp :
    Faithful 0 (fun t : Timestamp => .text t.render) WorkloadCommand.asTimestamp? where
  tame t := Tame.text _
  reads t := by
    rw [WorkloadCommand.asTimestamp?, Json.asString?, Option.bind_some, Timestamp.parse?_render]

/-! ## What a report holds -/

variable (strictness : Json.Strictness)

theorem Phase.faithful : Faithful 1 Phase.toJson (Phase.ofJson? strictness) where
  tame p := Tame.record fun m hm => by
    rw [List.mem_singleton.mp hm]
    exact Tame.text _
  reads p := by
    rw [Phase.ofJson?, Phase.toJson, fields?_record (by simp)]
    cases p <;> rfl

theorem AgentState.faithful : Faithful 0 AgentState.toJson (AgentState.ofJson? strictness) where
  tame s := Tame.text _
  reads s := by cases s <;> rfl

theorem Address.faithful : Faithful 1 Address.toJson (Address.ofJson? strictness) where
  tame a := Tame.record fun m hm => by
    rcases List.mem_pair.mp hm with rfl | rfl <;> exact Tame.text _
  reads a := by
    obtain ⟨address, kind⟩ := a
    rw [Address.ofJson?, Address.toJson, fields?_record (by simp)]
    cases kind <;> rfl

theorem Resources.faithful : Faithful 1 Resources.toJson Resources.ofJson? where
  tame r := Tame.record fun m hm => by
    simp only [List.mem_cons, List.not_mem_nil, or_false] at hm
    rcases hm with rfl | rfl | rfl
    · exact tame_uint64 r.cpu
    · exact tame_uint64 r.memory
    · exact tame_uint32 r.pods
  reads r := by
    have hfields : Json.fields? ["cpu", "memory", "pods"] r.toJson =
        some [some (.nat r.cpu.toNat), some (.nat r.memory.toNat), some (.nat r.pods.toNat)] :=
      fields?_record (by simp) _
    unfold Resources.ofJson?
    rw [hfields, Option.bind_eq_bind, Option.bind_some]
    simp only [Json.defaulted_some]
    rw [asUInt64?_nat, asUInt64?_nat, asUInt32?_nat]
    rfl

theorem NodeInfo.faithful : Faithful 1 NodeInfo.toJson NodeInfo.ofJson? where
  tame i := Tame.record fun m hm => by
    simp only [List.mem_cons, List.not_mem_nil, or_false] at hm
    rcases hm with rfl | rfl | rfl <;> exact Tame.text _
  reads i := by
    rw [NodeInfo.ofJson?, NodeInfo.toJson, fields?_record (by simp)]
    rfl

theorem WorkloadSummary.faithful :
    Faithful 2 WorkloadSummary.toJson (WorkloadSummary.ofJson? strictness) where
  tame s := Tame.record fun m hm => by
    simp only [List.mem_append, List.mem_cons, List.not_mem_nil, or_false] at hm
    rcases hm with (rfl | rfl | rfl) | hm
    · exact (Tame.text _).mono (Nat.zero_le _)
    · exact (Tame.text _).mono (Nat.zero_le _)
    · exact (Tame.text _).mono (Nat.zero_le _)
    · exact forall_mem_whenSome (P := fun m => Tame 1 m.2) (Phase.faithful strictness).tame s.phase m hm
  reads s := by
    have hkeys : ([("hash", Json.text s.hash), ("name", .text s.name), ("namespace", .text s.ns)] ++
        Json.whenSome "status" Phase.toJson s.phase).map (·.1) |>.Nodup :=
      ((keys_whenSome "status" Phase.toJson s.phase).append_left ["hash", "name", "namespace"]).nodup
        (by decide)
    have hphase := (Phase.faithful strictness).defaulted_none (fun a => by simp [Phase.toJson, Json.record]) s.phase
    rw [WorkloadSummary.ofJson?, WorkloadSummary.toJson, fields?_record hkeys]
    simp [List.lookup_cons, lookup_whenSome, hphase]

theorem NodeStatus.faithful : Faithful 3 NodeStatus.toJson (NodeStatus.ofJson? strictness) where
  tame s := Tame.record fun m hm => by
    simp only [List.mem_append] at hm
    rcases hm with ((hm | hm) | hm) | hm
    · exact forall_mem_omitIf (P := fun m => Tame 2 m.2) ((Address.faithful strictness).list.tame _) m hm
    · exact forall_mem_whenSome (P := fun m => Tame 2 m.2)
        (fun r => (Resources.faithful.tame r).mono (by decide)) s.allocatable m hm
    · exact forall_mem_whenSome (P := fun m => Tame 2 m.2)
        (fun r => (Resources.faithful.tame r).mono (by decide)) s.capacity m hm
    · exact forall_mem_whenSome (P := fun m => Tame 2 m.2)
        (fun i => (NodeInfo.faithful.tame i).mono (by decide)) s.nodeInfo m hm
  reads s := by
    have hkeys := ((((keys_omitIf s.addresses.isEmpty "addresses"
      (Json.ofList Address.toJson s.addresses)).append
      (keys_whenSome "allocatable" Resources.toJson s.allocatable)).append
      (keys_whenSome "capacity" Resources.toJson s.capacity)).append
      (keys_whenSome "nodeInfo" NodeInfo.toJson s.nodeInfo)).nodup (by decide)
    simp only [← List.map_append] at hkeys
    have haddresses := (Address.faithful strictness).list.defaulted_of (a := s.addresses) List.isEmpty_iff.mp
    have hallocatable := Resources.faithful.defaulted_none (by simp [Resources.toJson, Json.record]) s.allocatable
    have hcapacity := Resources.faithful.defaulted_none (by simp [Resources.toJson, Json.record]) s.capacity
    have hnodeInfo := NodeInfo.faithful.defaulted_none (by simp [NodeInfo.toJson, Json.record]) s.nodeInfo
    rw [NodeStatus.ofJson?, NodeStatus.toJson, fields?_record hkeys]
    simp [-List.isEmpty_iff, List.lookup_append, lookup_omitIf, lookup_whenSome, haddresses,
      hallocatable, hcapacity, hnodeInfo]

/-! ## Reports -/

namespace Heartbeat

theorem keys_members (h : Heartbeat) : (h.members.map (·.1)).Sublist fieldNames := by
  have hlabels := keys_omitIf h.labels.isEmpty "labels" (Json.ofMap Json.text h.labels)
  have hstatus := keys_whenSome "status" NodeStatus.toJson h.status
  have hpods := keys_omitIf h.pods.isEmpty "pods" (Json.ofList WorkloadSummary.toJson h.pods)
  have hmiddle : (["timestamp", "identifier", "seqnum", "state"] : List String).Sublist _ :=
    List.Sublist.refl _
  simpa [members, fieldNames] using ((hlabels.append hmiddle).append hstatus).append hpods

theorem tame_members (h : Heartbeat) : ∀ m ∈ h.members, Tame 3 m.2 := by
  intro m hm
  simp only [members, List.mem_cons, List.mem_append, List.not_mem_nil, or_false] at hm
  rcases hm with rfl | ((hm | (rfl | rfl | rfl | rfl)) | hm) | hm
  · exact (Tame.text _).mono (by decide)
  · exact forall_mem_omitIf (P := fun m => Tame 3 m.2)
      ((Faithful.text.map.tame h.labels).mono (by decide)) m hm
  · exact (faithful_int64.tame h.timestamp).mono (by decide)
  · exact (Tame.text _).mono (by decide)
  · exact (tame_uint64 h.seqnum).mono (by decide)
  · exact ((AgentState.faithful .direct).tame h.state).mono (by decide)
  · exact forall_mem_whenSome (P := fun m => Tame 3 m.2) (NodeStatus.faithful .direct).tame h.status m hm
  · exact forall_mem_omitIf (P := fun m => Tame 3 m.2)
      ((WorkloadSummary.faithful .direct).list.tame h.pods) m hm

theorem ofFields?_members (strictness : Json.Strictness) (h : Heartbeat) :
    ofFields? strictness (fieldNames.map (List.lookup · h.members)) = some h := by
  have hlabels := Faithful.text.map.defaulted_of (a := h.labels) (KeyMap.isEmpty_iff _).mp
  have hstatus := (NodeStatus.faithful strictness).defaulted_none
    (by simp [NodeStatus.toJson, Json.record]) h.status
  have hpods := (WorkloadSummary.faithful strictness).list.defaulted_of (a := h.pods) List.isEmpty_iff.mp
  have hfields : fieldNames.map (List.lookup · h.members) =
      [some (.text h.name),
        if h.labels.isEmpty then none else some (Json.ofMap Json.text h.labels),
        some (.int h.timestamp.toInt), some (.text h.identifier), some (.nat h.seqnum.toNat),
        some h.state.toJson, h.status.map NodeStatus.toJson,
        if h.pods.isEmpty then none else some (Json.ofList WorkloadSummary.toJson h.pods)] := by
    simp [-List.isEmpty_iff, fieldNames, members, List.lookup_append, lookup_omitIf, lookup_whenSome,
      List.lookup_cons]
  unfold ofFields?
  rw [hfields]
  simp only [Json.required_some, Json.defaulted_some]
  rw [hlabels, hstatus, hpods, asUInt64?_nat, faithful_int64.reads, (AgentState.faithful strictness).reads]
  rfl

theorem faithful : Faithful 4 toJson ofJson? where
  tame h := Tame.record h.tame_members
  reads h := by
    rw [ofJson?, toJson, fields?_record (h.keys_members.nodup (by decide)), Option.bind_some,
      ofFields?_members]

end Heartbeat

/-! ## Entries -/

namespace AgentEntry

/-- The members of an entry but the time are those of the report. -/
theorem aside_members (e : AgentEntry) :
    ((e.record.members ++ [("last_seen", Json.text e.lastSeen.render)]).filter
      fun m => m.1 != "last_seen") = e.record.members := by
  have hkept : e.record.members.filter (fun m => m.1 != "last_seen") = e.record.members := by
    rw [List.filter_eq_self]
    intro m hm
    have hkey : m.1 ∈ Heartbeat.fieldNames :=
      e.record.keys_members.subset (List.mem_map.mpr ⟨m, hm, rfl⟩)
    have hall : ∀ name ∈ Heartbeat.fieldNames, (name != "last_seen") = true := by decide
    exact hall _ hkey
  rw [List.filter_append, hkept]
  simp

theorem nodup_keys (e : AgentEntry) :
    ((e.record.members ++ [("last_seen", Json.text e.lastSeen.render)]).map (·.1)).Nodup := by
  rw [List.map_append]
  exact (e.record.keys_members.append (List.Sublist.refl ["last_seen"])).nodup (by decide)

theorem tame (e : AgentEntry) : Tame 4 e.toJson := Tame.record fun m hm => by
  rcases List.mem_append.mp hm with hm | hm
  · exact e.record.tame_members m hm
  · rw [List.mem_singleton.mp hm]
    exact (Tame.text _).mono (by decide)

/-- An entry is read back when there is room for its depth. -/
theorem reads (e : AgentEntry) {enclosing : Nat} (h : enclosing + 4 ≤ Json.maxDepth) :
    ofJson? enclosing e.toJson = some e := by
  have hkeys : ((e.record.members ++ [("last_seen", Json.text e.lastSeen.render)]).map
      fun m => ((some m.1, m.2) : Option String × Json)).all (fun m => m.1.isSome) = true := by simp
  have haside : ((e.record.members ++ [("last_seen", Json.text e.lastSeen.render)]).map
      fun m => ((some m.1, m.2) : Option String × Json)).filter (fun m => m.1 != some "last_seen") =
      e.record.members.map fun m => (some m.1, m.2) := by
    rw [List.filter_map]
    exact congrArg (List.map _) e.aside_members
  obtain ⟨-, hkeepable, hdepth⟩ := Tame.members e.record.tame_members
  have hroom : enclosing + 1 + Json.depthMembers (e.record.members.map fun m => (some m.1, m.2)) ≤
      Json.maxDepth := by omega
  have hlast : (e.record.members ++ [("last_seen", Json.text e.lastSeen.render)]).lookup "last_seen" =
      some (.text e.lastSeen.render) := by
    have hnone : e.record.members.lookup "last_seen" = none := by
      rw [List.lookup_eq_none_iff]
      intro m hm
      rw [← e.aside_members] at hm
      have hother : m.1 ≠ "last_seen" := by simpa using (List.mem_filter.mp hm).2
      simpa using hother.symm
    rw [List.lookup_append, hnone, Option.none_or]
    rfl
  have hfields : Json.fields? Heartbeat.fieldNames
      (.obj (e.record.members.map fun m => (some m.1, m.2))) =
      some (Heartbeat.fieldNames.map (List.lookup · e.record.members)) :=
    fields?_record (e.record.keys_members.nodup (by decide)) _
  have hform : e.toJson = .obj ((e.record.members ++ [("last_seen", Json.text e.lastSeen.render)]).map
      fun m => (some m.1, m.2)) := rfl
  rw [hform]
  unfold ofJson?
  simp only [hkeys, haside, hkeepable, hroom, guard, if_true, Json.lookupOnce?_members e.nodup_keys,
    hlast, hfields]
  simp [Heartbeat.ofFields?_members, faithful_timestamp.reads]

/-- The map of all agents is the one object around an entry. -/
theorem faithful : Faithful 4 toJson (ofJson? 1) := ⟨tame, fun e => e.reads (by decide)⟩

end AgentEntry

namespace AgentMap

/-- What a snapshot stores of the agents is read back from it. -/
theorem decode?_encode (m : AgentMap) : decode? m.encode = some m :=
  AgentEntry.faithful.map.bind_parse? m

end AgentMap

/-! ## Chunks -/

namespace Chunk

theorem faithful : Faithful 2 toJson ofJson? where
  tame c := Tame.record fun m hm => by
    simp only [List.mem_cons, List.not_mem_nil, or_false] at hm
    rcases hm with rfl | rfl | rfl | rfl | rfl
    · exact (Tame.text _).mono (by decide)
    · exact (Tame.text _).mono (by decide)
    · exact Faithful.text.map.tame c.labels
    · exact (Tame.text _).mono (by decide)
    · exact (tame_uint64 c.index).mono (by decide)
  reads c := by
    have hfields : Json.fields? ["namespace", "name", "labels", "data", "index"] c.toJson =
        some [some (.text c.ns), some (.text c.name), some (Json.ofMap Json.text c.labels),
          some (.text ((text? (Base64.encode c.data)).getD "")), some (.nat c.index.toNat)] :=
      fields?_record (by simp) _
    have hindex : ((Json.nat c.index.toNat).asNatBelow? UInt64.size).map Nat.toUInt64 = some c.index :=
      asUInt64?_nat c.index
    unfold ofJson?
    rw [hfields, Option.bind_eq_bind, Option.bind_some]
    simp only [Json.required_some]
    rw [Faithful.text.map.reads, hindex]
    simp [Base64.decode?_utf8_text?]

theorem decode?_encode (c : Chunk) : decode? c.encode = some c := faithful.bind_parse? c

end Chunk

end EdgeFleet
