import EdgeFleet.Agent.Instance
import EdgeFleet.Dispatch
import EdgeFleet.Proofs.Json.Records

/-! # Messages to an agent

A topic names the agent that it was made for, and an acknowledgement is read back from its message. Only
the name of the agent is not part of the message; the topic tells it.
-/

namespace EdgeFleet

/-! ## Topics -/

namespace Topic

theorem splitSlash?_append {front : List Char} (h : '/' ∉ front) (back : List Char) :
    splitSlash? (front ++ '/' :: back) = some (front, back) := by
  induction front with
  | nil => rfl
  | cons c front ih =>
      simp only [List.mem_cons, not_or] at h
      rw [List.cons_append, splitSlash?.eq_3 _ _ (Ne.symm h.1), ih h.2, Option.map_some]

theorem splitSlash?_control (agent : String) :
    splitSlash? (control agent).toList = some (['c', 't', 'l'], agent.toList) := by
  rw [control, String.toList_append]
  have hfront : '/' ∉ ['c', 't', 'l'] := by decide
  exact splitSlash?_append hfront _

theorem splitSlash?_data (agent : String) :
    splitSlash? (data agent).toList = some (['d', 'a', 't', 'a'], agent.toList) := by
  rw [data, String.toList_append]
  have hfront : '/' ∉ ['d', 'a', 't', 'a'] := by decide
  exact splitSlash?_append hfront _

theorem parse?_of_split {topic agent : String} {front : List Char}
    (h : splitSlash? topic.toList = some (front, agent.toList)) :
    parse? topic =
      if agent = "" then none
      else if front = ['c', 't', 'l'] then some (.control agent)
      else if front = ['d', 'a', 't', 'a'] then some (.data agent)
      else none := by
  rw [parse?, h]
  by_cases hagent : agent = ""
  · subst hagent
    rfl
  · have hlist : agent.toList ≠ [] := fun hnil => hagent (String.toList_eq_nil_iff.mp hnil)
    obtain ⟨c, cs, hcs⟩ := List.exists_cons_of_ne_nil hlist
    rw [if_neg hagent, ← String.ofList_toList (s := agent), hcs, String.toList_ofList]

theorem parse?_control (agent : String) :
    parse? (control agent) = if agent = "" then none else some (.control agent) := by
  rw [parse?_of_split (splitSlash?_control agent), if_pos rfl]

theorem parse?_data (agent : String) :
    parse? (data agent) = if agent = "" then none else some (.data agent) := by
  have hother : ['d', 'a', 't', 'a'] ≠ ['c', 't', 'l'] := by decide
  rw [parse?_of_split (splitSlash?_data agent), if_neg hother, if_pos rfl]

theorem control_ne_heartbeat (agent : String) : control agent ≠ heartbeat := by
  intro h
  have hsplit := splitSlash?_control agent
  rw [h] at hsplit
  have hnone : splitSlash? heartbeat.toList = none := by decide
  simp [hnone] at hsplit

theorem data_ne_heartbeat (agent : String) : data agent ≠ heartbeat := by
  intro h
  have hsplit := splitSlash?_data agent
  rw [h] at hsplit
  have hnone : splitSlash? heartbeat.toList = none := by decide
  simp [hnone] at hsplit

end Topic

/-! ## Acknowledgements -/

open Json

theorem Ack.decode?_encode (k : Ack) : decode? k.encode = some { k with agent := "" } := by
  have hplain : k.toJson.isPlain = true := rfl
  have hfields : Json.fields? ["identifier", "registerd"] k.toJson =
      some [some (.text k.identifier), some (.bool k.accepted)] :=
    fields?_record (by simp) _
  rw [decode?, encode, parse?_render hplain, Option.bind_some]
  unfold ofJson?
  rw [hfields]
  rfl

/-- The acknowledgement that a message brings to the agent of a name. -/
def Message.ackFor? (m : Message) (name : String) : Option Ack :=
  match Topic.parse? m.topic with
  | some (.control agent) => if agent = name then Ack.decode? m.payload else none
  | _ => none

namespace Message

/-- An acknowledgement gets to the agent that it is for, and to no other one. -/
theorem ackFor?_ofAck (k : Ack) (name : String) :
    (ofAck k).ackFor? name =
      if k.agent = name ∧ name ≠ "" then some { k with agent := "" } else none := by
  rw [ackFor?, ofAck, Topic.parse?_control, Ack.decode?_encode]
  by_cases hname : k.agent = name
  · subst hname
    by_cases hempty : k.agent = "" <;> simp [hempty]
  · by_cases hempty : k.agent = "" <;> simp [hempty, hname]

theorem ackFor?_ofCommand (agent : String) (c : WorkloadCommand) (name : String) :
    (ofCommand agent c).ackFor? name = none := by
  rw [ackFor?, ofCommand, Topic.parse?_data]
  by_cases hempty : agent = "" <;> simp [hempty]

theorem ackFor?_heartbeat (payload : Bytes) (name : String) :
    (⟨Topic.heartbeat, payload⟩ : Message).ackFor? name = none := by
  have hparse : Topic.parse? Topic.heartbeat = none := by decide
  rw [ackFor?, hparse]

end Message

namespace Agent

theorem receive_of_ackFor? {a : Agent} {m : Message} {k : Ack} (h : m.ackFor? a.name = some k) :
    a.receive m.topic m.payload = a.acknowledge k := by
  rw [Message.ackFor?] at h
  rw [receive]
  cases hparse : Topic.parse? m.topic with
  | none => simp [hparse] at h
  | some channel =>
      cases channel with
      | data name => simp [hparse] at h
      | control name =>
          simp only [hparse] at h ⊢
          split at h
          · next hname => simp [hname, h]
          · cases h

/-- A message that brings no acknowledgement can only change the workloads. -/
theorem receive_of_ackFor?_none {a : Agent} {m : Message} (h : m.ackFor? a.name = none) :
    ∃ workloads, a.receive m.topic m.payload = (none, { a with workloads }) := by
  rw [Message.ackFor?] at h
  rw [receive]
  cases hparse : Topic.parse? m.topic with
  | none => exact ⟨a.workloads, rfl⟩
  | some channel =>
      cases channel with
      | data name =>
          by_cases hname : name = a.name
          · simp only [hname, if_true]
            cases WorkloadCommand.decode? m.payload with
            | none => exact ⟨a.workloads, rfl⟩
            | some c => exact ⟨_, rfl⟩
          · exact ⟨a.workloads, by simp only [hname, if_false]⟩
      | control name =>
          simp only [hparse] at h ⊢
          by_cases hname : name = a.name
          · rw [if_pos hname] at h ⊢
            exact ⟨a.workloads, by rw [h]⟩
          · exact ⟨a.workloads, by simp only [hname, if_false]⟩

theorem receive_ofAck_of_ne {a : Agent} {k : Ack} (h : k.agent ≠ a.name) :
    a.receive (Message.ofAck k).topic (Message.ofAck k).payload = (none, a) := by
  rw [receive, Message.ofAck, Topic.parse?_control]
  by_cases hempty : k.agent = ""
  · rw [if_pos hempty]
  · rw [if_neg hempty]
    simp only [h, if_false]

end Agent

end EdgeFleet
