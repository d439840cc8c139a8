import EdgeFleet.Agent.Settings
import EdgeFleet.Proofs.Files.Tree
import EdgeFleet.Proofs.Toml.Range
import EdgeFleet.Proofs.Toml.RoundTrip

/-! # Settings survive saving

The text of settings is read back as the same settings. There is none when a number takes more than the
63 bits that the format has for it, and no text that is read yields such a number.
-/

namespace EdgeFleet

namespace AgentSettings

/-- All numbers whose type allows more than the file does. -/
def numbers (s : AgentSettings) : List UInt64 :=
  [s.broker.keepAlive, s.instances, s.heartbeatInterval, s.registrationBackoff, s.spawnInterval]

/-- The number is among the integers of 64 bits with a sign. -/
def IsSigned (n : UInt64) : Prop := (n.toNat : Int) ≤ Int64.maxValue.toInt

theorem isSigned_iff {n : UInt64} : IsSigned n ↔ n.toNat ≤ Toml.maxNumber := by
  have hmax : Int64.maxValue.toInt = Toml.maxNumber := by decide
  rw [IsSigned, hmax, Int.ofNat_le]

instance (n : UInt64) : Decidable (IsSigned n) := decidable_of_iff _ isSigned_iff.symm

def Fits (s : AgentSettings) : Prop := ∀ n ∈ s.numbers, IsSigned n

instance (s : AgentSettings) : Decidable s.Fits := List.decidableBAll _ s.numbers

theorem fits_default : default.Fits := by decide

variable {s : AgentSettings} {text : String}

/-! ## Writing -/

theorem isDocument_tables (s : AgentSettings) : Toml.IsDocument s.tables := by
  cases hname : s.baseName <;> constructor <;>
    simp only [tables, hname, Option.toList_none, Option.toList_some, List.map_cons, List.map_nil,
      List.nil_append, List.cons_append, List.forall_mem_cons, List.not_mem_nil, false_imp_iff, implies_true,
      and_true] <;>
    decide

theorem isSome_render? : s.render?.isSome = true ↔ s.Fits := by
  have hport := s.broker.port.toNat_lt
  rw [render?, Toml.isSome_render?]
  simp only [tables, Fits, isSigned_iff, numbers, List.forall_mem_cons, List.forall_mem_append, List.forall_mem_map,
    List.not_mem_nil, false_imp_iff, implies_true, and_true, true_and, Toml.Plain.nat.injEq, forall_eq',
    reduceCtorEq, Toml.maxNumber]
  omega

theorem fits_of_render (h : s.render? = some text) : s.Fits := by
  refine isSome_render?.mp ?_
  rw [h]
  rfl

/-! ## Reading -/

theorem asUInt64?_integer (n : UInt64) : asUInt64? (.integer n.toNat) = some n := by
  rw [asUInt64?, Toml.asNatBelow?_integer n.toNat_lt, Option.map_some, Nat.toUInt64, UInt64.ofNat_toNat]

theorem asUInt16?_integer (n : UInt16) : asUInt16? (.integer n.toNat) = some n := by
  rw [asUInt16?, Toml.asNatBelow?_integer n.toNat_lt, Option.map_some, Nat.toUInt16, UInt16.ofNat_toNat]

/-- The text of settings is read back. -/
theorem ofText?_render (h : s.render? = some text) : ofText? text = some s := by
  have hparse := Toml.parse?_render (isDocument_tables s) h
  obtain ⟨broker, baseName, instances, heartbeatInterval, registrationBackoff, spawnInterval, persistentDir⟩ := s
  rw [ofText?, hparse]
  -- With explicit proofs the kernel does not unfold the readers of numbers.
  cases baseName <;>
    simp -implicitDefEqProofs [tables, Toml.tableOf, Toml.Plain.toToml, Toml.defaulted, brokerOf?, agentOf?,
      Toml.fields?, List.lookup_cons, Toml.asText?, asUInt64?_integer, asUInt16?_integer]

/-! ### Numbers that are read -/

theorem isSigned_of_asUInt64? {t : Toml} {n : UInt64} (ht : t.InRange) (h : asUInt64? t = some n) :
    IsSigned n := by
  obtain ⟨k, hk, rfl⟩ := Option.map_eq_some_iff.mp h
  cases ht with
  | integer hrange =>
      simp only [Toml.asNatBelow?, Option.ite_none_right_eq_some, Option.some.injEq] at hk
      obtain ⟨hbounds, rfl⟩ := hk
      rw [IsSigned, Nat.toUInt64, UInt64.toNat_ofNat']
      omega
  | _ => cases hk

theorem isSigned_of_defaulted {d n : UInt64} {o : Option Toml} (hd : IsSigned d) (ho : ∀ t ∈ o, t.InRange)
    (h : Toml.defaulted d asUInt64? o = some n) : IsSigned n := by
  cases o with
  | none =>
      cases h
      exact hd
  | some t => exact isSigned_of_asUInt64? (ho t rfl) h

theorem isSigned_of_brokerOf? {t : Toml} {b : AgentBroker} (ht : t.InRange) (h : brokerOf? t = some b) :
    IsSigned b.keepAlive := by
  obtain ⟨fields, hfields, h⟩ := Option.bind_eq_some_iff.mp h
  have hsound := Toml.inRange_of_fields? ht hfields
  split at h
  · simp only [List.forall_mem_cons] at hsound
    simp only [Option.bind_eq_bind, Option.bind_eq_some_iff, Option.pure_def, Option.some.injEq] at h
    obtain ⟨host, -, port, -, keepAlive, hkeepAlive, rfl⟩ := h
    exact isSigned_of_defaulted (by decide) hsound.2.2.1 hkeepAlive
  · cases h

theorem fits_of_agentOf? {broker : AgentBroker} {t : Toml} (hbroker : IsSigned broker.keepAlive)
    (ht : t.InRange) (h : agentOf? broker t = some s) : s.Fits := by
  obtain ⟨fields, hfields, h⟩ := Option.bind_eq_some_iff.mp h
  have hsound := Toml.inRange_of_fields? ht hfields
  split at h
  · simp only [List.forall_mem_cons] at hsound
    simp only [Option.bind_eq_bind, Option.bind_eq_some_iff, Option.pure_def, Option.some.injEq] at h
    obtain ⟨baseName, -, instances, hinstances, heartbeatInterval, hheartbeat, registrationBackoff,
      hregistration, spawnInterval, hspawn, persistentDir, -, rfl⟩ := h
    obtain ⟨-, sinstances, sheartbeat, sregistration, sspawn, -⟩ := hsound
    simp only [Fits, numbers, List.forall_mem_cons, List.not_mem_nil, false_imp_iff, implies_true, and_true]
    exact ⟨hbroker, isSigned_of_defaulted (by decide) sinstances hinstances,
      isSigned_of_defaulted (by decide) sheartbeat hheartbeat,
      isSigned_of_defaulted (by decide) sregistration hregistration,
      isSigned_of_defaulted (by decide) sspawn hspawn⟩
  · cases h

/-- What a text spells can be written. -/
theorem fits_of_ofText? (h : ofText? text = some s) : s.Fits := by
  obtain ⟨root, hroot, h⟩ := Option.bind_eq_some_iff.mp h
  obtain ⟨broker, hbroker, h⟩ := Option.bind_eq_some_iff.mp h
  have hin := Toml.inRange_of_parse? hroot
  have hkeepAlive : IsSigned broker.keepAlive := by
    cases hmqtt : root.lookup "mqtt" with
    | none =>
        rw [hmqtt] at hbroker
        cases hbroker
        decide
    | some t =>
        rw [hmqtt] at hbroker
        exact isSigned_of_brokerOf? (Toml.inRange_of_lookup hin hmqtt) hbroker
  cases hagent : root.lookup "agent" with
  | none =>
      rw [hagent] at h
      cases h
      exact List.forall_mem_cons.mpr ⟨hkeepAlive, (List.forall_mem_cons.mp fits_default).2⟩
  | some t =>
      rw [hagent] at h
      exact fits_of_agentOf? hkeepAlive (Toml.inRange_of_lookup hin hagent) h

/-! ## Saving -/

variable {place : Location} {files : FileTree}

theorem load_of_read (hread : files.read place = .ok (utf8 text)) (h : ofText? text = some s) :
    load place files = .ok s := by
  simp only [load, FileTree.exist_of_read hread, hread, text?_utf8, h]

/-- What saving can come to. -/
inductive Saving (s : AgentSettings) (place : Location) (files : FileTree) :
    Except SaveError Unit × FileTree → Prop where
  | blocked {e : FileError} (hmake : files.makeFolders place.dropLast = .error e) :
      Saving s place files (.error (.write e), files)
  | unfit {made : FileTree} (hmake : files.makeFolders place.dropLast = .ok made) (hfits : ¬s.Fits) :
      Saving s place files (.error .number, made)
  | refused {made : FileTree} {text : String} {e : FileError}
      (hmake : files.makeFolders place.dropLast = .ok made) (hrender : s.render? = some text)
      (hwrite : made.write place (utf8 text) = .error e) : Saving s place files (.error (.write e), made)
  | saved {made files' : FileTree} {text : String} (hmake : files.makeFolders place.dropLast = .ok made)
      (hrender : s.render? = some text) (hwrite : made.write place (utf8 text) = .ok files') :
      Saving s place files (.ok (), files')

theorem saving (s : AgentSettings) (place : Location) (files : FileTree) :
    Saving s place files (s.save place files) := by
  unfold save
  split
  · next e hmake => exact .blocked hmake
  · next made hmake =>
    split
    · next hrender =>
      refine .unfit hmake ?_
      rw [← isSome_render?, hrender]
      decide
    · next text hrender =>
      split
      · next e hwrite => exact .refused hmake hrender hwrite
      · next files' hwrite => exact .saved hmake hrender hwrite

theorem save_eq_ok : (s.save place files).1 = .ok () ↔ s.Fits ∧ files.Admits place := by
  have hsaving := saving s place files
  generalize s.save place files = result at hsaving
  cases hsaving with
  | blocked hmake => simp [FileTree.Admits, hmake]
  | unfit hmake hfits => simp [hfits]
  | @refused made text e hmake hrender hwrite =>
      have hno : ∀ o, made.find place = .ok o → o = some .folder := by
        intro o hfind
        by_contra ho
        have hok : made.write place (utf8 text) = .ok _ := FileTree.write_eq_ok.mpr ⟨o, hfind, ho, rfl⟩
        rw [hok] at hwrite
        cases hwrite
      simpa [FileTree.Admits, hmake] using fun _ => hno
  | saved hmake hrender hwrite =>
      obtain ⟨o, hfind, ho, -⟩ := FileTree.write_eq_ok.mp hwrite
      simp [fits_of_render hrender, FileTree.Admits, hmake, hfind, ho]

theorem load_of_save (h : (s.save place files).1 = .ok ()) : load place (s.save place files).2 = .ok s := by
  have hsaving := saving s place files
  generalize s.save place files = result at hsaving h
  cases hsaving with
  | saved hmake hrender hwrite => exact load_of_read (FileTree.read_write hwrite) (ofText?_render hrender)
  | _ => cases h

theorem read_of_save {e : SaveError} (h : (s.save place files).1 = .error e) {l : Location} {content : Bytes}
    (hread : files.read l = .ok content) : (s.save place files).2.read l = .ok content := by
  have hsaving := saving s place files
  generalize s.save place files = result at hsaving h
  cases hsaving with
  | blocked hmake => exact hread
  | unfit hmake _ | refused hmake _ _ => exact FileTree.read_of_makeFolders hmake hread
  | saved => cases h

theorem save_eq_number : (s.save place files).1 = .error .number ↔
    ¬s.Fits ∧ ∃ made, files.makeFolders place.dropLast = .ok made := by
  have hsaving := saving s place files
  generalize s.save place files = result at hsaving
  cases hsaving with
  | blocked hmake => simp [hmake]
  | unfit hmake hfits => simp [hmake, hfits]
  | refused _ hrender _ | saved _ hrender _ => simp [fits_of_render hrender]

theorem fits_of_load (h : load place files = .ok s) : s.Fits := by
  unfold load at h
  split at h
  · split at h
    · cases h
    · split at h
      · cases h
      · split at h
        · cases h
        · next htext =>
          cases h
          exact fits_of_ofText? htext
  · cases h
    exact fits_default

/-- Settings that are saved are loaded as they were. Whether they can be saved does not depend on the texts
in them, but on the place and on numbers that the file has no room for; what was in a file is kept when they
cannot. What has been loaded can be saved where it was. -/
theorem survives_saving (s : AgentSettings) (place : Location) (files : FileTree) :
    ((s.save place files).1 = .ok () ↔ s.Fits ∧ files.Admits place) ∧
    ((s.save place files).1 = .ok () → load place (s.save place files).2 = .ok s) ∧
    (¬s.Fits → (∃ e, (s.save place files).1 = .error e) ∧
      ((∃ made, files.makeFolders place.dropLast = .ok made) → (s.save place files).1 = .error .number) ∧
      ∀ l content, files.read l = .ok content → (s.save place files).2.read l = .ok content) ∧
    (load place files = .ok s → s.Fits ∧
      ∀ content, files.read place = .ok content →
        (s.save place files).1 = .ok () ∧ load place (s.save place files).2 = .ok s) := by
  have herror : ¬s.Fits → ∃ e, (s.save place files).1 = .error e := by
    intro hfits
    cases hsave : (s.save place files).1 with
    | error e => exact ⟨e, rfl⟩
    | ok _ => exact absurd (save_eq_ok.mp hsave).1 hfits
  refine ⟨save_eq_ok, load_of_save, fun hfits => ?_, fun hload => ⟨fits_of_load hload, fun content hread => ?_⟩⟩
  · obtain ⟨e, he⟩ := herror hfits
    exact ⟨⟨e, he⟩, fun hmade => save_eq_number.mpr ⟨hfits, hmade⟩, fun l content => read_of_save he⟩
  · have hsave := save_eq_ok.mpr ⟨fits_of_load hload, FileTree.admits_of_read hread⟩
    exact ⟨hsave, load_of_save hsave⟩

/-- Settings whose texts need every form of quotes, with the greatest number that fits. -/
def awkward : AgentSettings where
  broker := ⟨"\"\n'''\\\x00é", 65535, 9223372036854775807⟩
  baseName := some "a'b\"c\t\x7f"
  instances := 0
  heartbeatInterval := 9223372036854775807
  registrationBackoff := 10
  spawnInterval := 500
  persistentDir := "C:\\data\r\n\"\"\""

theorem survives_saving_awkward :
    ((awkward.save ["etc", "agent.toml"] .empty).1 = .ok () ∧
      load ["etc", "agent.toml"] (awkward.save ["etc", "agent.toml"] .empty).2 = .ok awkward) ∧
    (¬{ awkward with instances := 9223372036854775808 }.Fits ∧
      ({ awkward with instances := 9223372036854775808 }.save ["agent.toml"]
        ⟨[(["agent.toml"], .file [35])]⟩).2.read ["agent.toml"] = .ok [35]) ∧
    load ["agent.toml"] ({ default with instances := 5, baseName := some "rack7" }.save ["agent.toml"]
        ⟨[(["agent.toml"], .file (utf8 "[agent]\ninstances = 5\nname_prefix = \"rack7\"\n"))]⟩).2 =
      .ok { default with instances := 5, baseName := some "rack7" } := by
  refine ⟨?_, ?_, ?_⟩
  · obtain ⟨hok, hload, -, -⟩ := survives_saving awkward ["etc", "agent.toml"] .empty
    have hsave := hok.mpr ⟨by decide, _, _, rfl, rfl, by decide⟩
    exact ⟨hsave, hload hsave⟩
  · obtain ⟨-, -, hkeep, -⟩ := survives_saving { awkward with instances := 9223372036854775808 } ["agent.toml"]
      ⟨[(["agent.toml"], .file [35])]⟩
    have hunfit : ¬{ awkward with instances := 9223372036854775808 }.Fits := by decide
    exact ⟨hunfit, (hkeep hunfit).2.2 ["agent.toml"] [35] rfl⟩
  · obtain ⟨-, -, -, hagain⟩ := survives_saving { default with instances := 5, baseName := some "rack7" }
      ["agent.toml"] ⟨[(["agent.toml"], .file (utf8 "[agent]\ninstances = 5\nname_prefix = \"rack7\"\n"))]⟩
    exact ((hagain (load_of_read rfl (by decide +kernel))).2 _ rfl).2

end AgentSettings

end EdgeFleet
