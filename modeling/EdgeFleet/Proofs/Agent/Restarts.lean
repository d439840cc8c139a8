import EdgeFleet.Agent.Identity
import EdgeFleet.Agent.Instance
import EdgeFleet.Proofs.Files.Tree
import EdgeFleet.Proofs.Fleet.Forms
import EdgeFleet.Proofs.Fleet.Offers

/-! # A restart is no replay

Each start of an agent counts its sequence number on in a file before it runs under it. Whatever becomes
of the starts, those that are completed run under greater and greater numbers, so the filter takes the
first report of each for a new one and all reports of earlier ones for old.
-/

namespace EdgeFleet

/-! ## The file -/

namespace Identity

/-- What is written to the file is read from it. -/
theorem decode?_encode {i : Identity} (h : i.sequence < UInt64.size) : decode? i.encode = some i := by
  have hplain : i.toJson.isPlain = true := rfl
  have hfields : Json.fields? ["agentIdentity", "sequenceNumber"] i.toJson =
      some [some (.text i.identity), some (.nat i.sequence)] := Json.fields?_record (by simp) _
  rw [decode?, encode, Json.parse?_renderPretty hplain, Option.bind_some]
  unfold ofJson?
  rw [hfields, Option.bind_eq_bind, Option.bind_some]
  simp [Json.asNatBelow?_nat h]

end Identity

namespace Start

variable {fresh : String} {dir : Location} {agent : String} {files files' : FileTree}

theorem place_ne_draft (dir : Location) (agent : String) : place dir agent ≠ draft dir agent := by
  obtain ⟨front, last, hplace⟩ := Location.join_append dir agent ".json" (by decide) (by decide)
  obtain ⟨front', last', hdraft⟩ := Location.join_append dir
    (if agent.toList.getLast?.all (· = '/') then agent ++ ".json" else agent) ".json.tmp"
    (by decide) (by decide)
  intro heq
  have hends : last ++ ".json".toList = last' ++ ".json.tmp".toList := by
    have hnames := congrArg List.getLast? (hplace.symm.trans (heq.trans hdraft))
    rw [List.getLast?_concat, List.getLast?_concat, Option.some_inj] at hnames
    exact String.ofList_injective hnames
  have hlast := congrArg List.getLast? hends
  simp at hlast

/-- Where the identity of a start comes from. -/
theorem identity?_eq_ok {found : Except FileError Bytes} {i : Identity}
    (h : identity? fresh found = .ok i) :
    found = .error .notFound ∧ i = .first fresh ∨
      ∃ bs held, found = .ok bs ∧ Identity.decode? bs = some held ∧ i = held.next := by
  unfold identity? at h
  split at h
  · next bs =>
    split at h
    · next held hdecode =>
      cases h
      exact .inr ⟨bs, held, rfl, hdecode, rfl⟩
    · cases h
  · cases h
    exact .inl ⟨rfl, rfl⟩
  · cases h

theorem run_eq_ok {s : Start} (h : run fresh dir agent files = .ok s) :
    identity? fresh (files.read (place dir agent)) = .ok s.identity ∧ ∃ made written placed,
      files.makeFolders dir = .ok made ∧ made.write (draft dir agent) s.identity.encode = .ok written ∧
      written.rename (draft dir agent) (place dir agent) = .ok placed ∧ s.files = placed := by
  obtain ⟨i, hi, h⟩ := FileTree.bind_eq_ok.mp h
  split at h
  · next stages hstages =>
    cases h
    obtain ⟨made, hmade, hstages⟩ := FileTree.bind_eq_ok.mp hstages
    obtain ⟨written, hwritten, hstages⟩ := FileTree.bind_eq_ok.mp hstages
    obtain ⟨placed, hplaced, hstages⟩ := FileTree.bind_eq_ok.mp hstages
    cases hstages
    exact ⟨hi, made, written, placed, hmade, hwritten, hplaced, rfl⟩
  · cases h

/-- A completed start leaves its identity in the file. -/
theorem run_spec {s : Start} (hwell : files.WellFormed) (h : run fresh dir agent files = .ok s) :
    s.files.WellFormed ∧ s.files.read (place dir agent) = .ok s.identity.encode := by
  obtain ⟨-, made, written, placed, hmade, hwrite, hrename, hfiles⟩ := run_eq_ok h
  obtain ⟨hwritten, hdraft⟩ := (FileTree.opens_of_makeFolders hwell hmade).wellFormed.of_write hwrite
  obtain ⟨hplaced, content, hcontent, hnode⟩ := hwritten.of_rename hrename
  rw [hdraft, if_pos rfl] at hcontent
  cases hcontent
  have hplace : placed.node? (place dir agent) = some (.file s.identity.encode) := by
    rw [hnode, if_pos rfl]
  have hname : FileTree.isNameable (place dir agent) = .ok () := by
    obtain ⟨_, _, -, hfind, -⟩ := FileTree.rename_eq_ok.mp hrename
    exact (FileTree.find_eq_ok.mp hfind).1
  rw [hfiles]
  exact ⟨hplaced, FileTree.read_eq_ok.mpr
    (FileTree.find_eq_ok.mpr ⟨hname, hplaced.checkFolder hplace, hplace⟩)⟩

/-- What a start can leave of the files when it is broken off: nothing has been done yet, or some of the
folders on the way are there, or the file beside has been begun, with whatever has got into it, or it has
taken its place. Nothing is done before the identity is known. -/
inductive Leaves (fresh : String) (dir : Location) (agent : String) (files : FileTree) : FileTree → Prop
  | untouched : Leaves fresh dir agent files files
  | opened {i n made} (hi : identity? fresh (files.read (place dir agent)) = .ok i)
      (hmade : files.makeFolders (dir.take n) = .ok made) : Leaves fresh dir agent files made
  | drafted {i made content written} (hi : identity? fresh (files.read (place dir agent)) = .ok i)
      (hmade : files.makeFolders dir = .ok made)
      (hwrite : made.write (draft dir agent) content = .ok written) : Leaves fresh dir agent files written
  | placed {s} (hrun : run fresh dir agent files = .ok s) : Leaves fresh dir agent files s.files

/-- A start that is broken off has counted the number on in the file, or it has left the file alone. -/
theorem Leaves.spec (hwell : files.WellFormed) (h : Leaves fresh dir agent files files') :
    files'.WellFormed ∧ ((∃ s, run fresh dir agent files = .ok s ∧ files' = s.files) ∨
      ∀ content, files.read (place dir agent) = .ok content →
        files'.read (place dir agent) = .ok content) := by
  cases h with
  | untouched => exact ⟨hwell, .inr fun _ hread => hread⟩
  | opened _ hmade =>
      exact ⟨(FileTree.opens_of_makeFolders hwell hmade).wellFormed,
        .inr fun _ hread => FileTree.read_of_makeFolders hmade hread⟩
  | drafted _ hmade hwrite =>
      have hopened := (FileTree.opens_of_makeFolders hwell hmade).wellFormed
      refine ⟨(hopened.of_write hwrite).1, .inr fun _ hread => ?_⟩
      exact hopened.read_of_write hwrite (place_ne_draft dir agent)
        (FileTree.read_of_makeFolders hmade hread)
  | placed hrun => exact ⟨(run_spec hwell hrun).1, .inl ⟨_, hrun, rfl⟩⟩

end Start

/-! ## The lives of an agent -/

/-- A series of starts of an agent, with the identities of those that were completed, in order. In
between, other files may change. The numbers stay below the bound of 64 bits. -/
inductive Lives (dir : Location) (agent : String) (files : FileTree) : List Identity → FileTree → Prop
  | start : Lives dir agent files [] files
  | elsewhere {lives files' files''} (h : Lives dir agent files lives files')
      (hwell : files''.WellFormed)
      (hsame : files''.read (Start.place dir agent) = files'.read (Start.place dir agent)) :
      Lives dir agent files lives files''
  | broken {lives files' files'' fresh} (h : Lives dir agent files lives files')
      (hleaves : Start.Leaves fresh dir agent files' files'')
      (hfits : ∀ s, Start.run fresh dir agent files' = .ok s → s.identity.sequence < UInt64.size) :
      Lives dir agent files lives files''
  | completed {lives files' fresh s} (h : Lives dir agent files lives files')
      (hrun : Start.run fresh dir agent files' = .ok s) (hfits : s.identity.sequence < UInt64.size) :
      Lives dir agent files (lives ++ [s.identity]) s.files

namespace Lives

variable {dir : Location} {agent : String} {files files' : FileTree} {lives : List Identity}

/-- What the file holds. -/
def Holds (dir : Location) (agent : String) (files : FileTree) (held : Identity) : Prop :=
  ∃ bs, files.read (Start.place dir agent) = .ok bs ∧ Identity.decode? bs = some held

/-- The lives are one agent's, each has a greater number than the ones before, and the file holds a number
that is no smaller than any of them. -/
structure Remembered (dir : Location) (agent : String) (lives : List Identity) (files : FileTree) :
    Prop where
  wellFormed : files.WellFormed
  bounds : ∀ i ∈ lives, 0 < i.sequence ∧ i.sequence < UInt64.size
  ordered : lives.Pairwise fun i j => i.identity = j.identity ∧ i.sequence < j.sequence
  held : ∀ i ∈ lives, ∃ held, Holds dir agent files held ∧ held.identity = i.identity ∧
    i.sequence ≤ held.sequence

theorem remembered_nil (hwell : files.WellFormed) : Remembered dir agent [] files :=
  ⟨hwell, by simp, .nil, by simp⟩

/-- As long as the file is not replaced everything is remembered. -/
theorem Remembered.of_same (h : Remembered dir agent lives files) (hwell : files'.WellFormed)
    (hsame : ∀ content, files.read (Start.place dir agent) = .ok content →
      files'.read (Start.place dir agent) = .ok content) : Remembered dir agent lives files' := by
  refine ⟨hwell, h.bounds, h.ordered, fun i hi => ?_⟩
  obtain ⟨held, ⟨bs, hread, hdecode⟩, hidentity, hle⟩ := h.held i hi
  exact ⟨held, ⟨bs, hsame bs hread, hdecode⟩, hidentity, hle⟩

/-- The next start runs under the identity of all lives so far and under a greater number. -/
theorem Remembered.next (h : Remembered dir agent lives files) {fresh : String} {s : Start}
    (hrun : Start.run fresh dir agent files = .ok s) :
    0 < s.identity.sequence ∧
      ∀ i ∈ lives, i.identity = s.identity.identity ∧ i.sequence < s.identity.sequence := by
  rcases Start.identity?_eq_ok (Start.run_eq_ok hrun).1 with ⟨hmissing, hi⟩ | ⟨bs, held, hread, hdecode, hi⟩
  · rw [hi]
    refine ⟨Nat.one_pos, fun i hmem => ?_⟩
    obtain ⟨-, ⟨bs, hread, -⟩, -⟩ := h.held i hmem
    rw [hmissing] at hread
    cases hread
  · rw [hi]
    refine ⟨Nat.succ_pos _, fun i hmem => ?_⟩
    obtain ⟨held', ⟨bs', hread', hdecode'⟩, hidentity, hle⟩ := h.held i hmem
    rw [hread] at hread'
    cases hread'
    rw [hdecode] at hdecode'
    cases hdecode'
    exact ⟨hidentity.symm, Nat.lt_succ_of_le hle⟩

/-- A start that has replaced the file is remembered, whether it went on from there or not. -/
theorem Remembered.run (h : Remembered dir agent lives files) {fresh : String} {s : Start}
    (hrun : Start.run fresh dir agent files = .ok s) (hfits : s.identity.sequence < UInt64.size) :
    Remembered dir agent lives s.files ∧ Remembered dir agent (lives ++ [s.identity]) s.files := by
  obtain ⟨hwell, hread⟩ := Start.run_spec h.wellFormed hrun
  obtain ⟨hpos, hnext⟩ := h.next hrun
  have hholds : Holds dir agent s.files s.identity := ⟨_, hread, Identity.decode?_encode hfits⟩
  have hheld : ∀ i ∈ lives, ∃ held, Holds dir agent s.files held ∧ held.identity = i.identity ∧
      i.sequence ≤ held.sequence := fun i hi =>
    ⟨s.identity, hholds, (hnext i hi).1.symm, Nat.le_of_lt (hnext i hi).2⟩
  refine ⟨⟨hwell, h.bounds, h.ordered, hheld⟩, hwell, ?_, ?_, ?_⟩
  · intro i hi
    rcases List.mem_append.mp hi with hi | hi
    · exact h.bounds i hi
    · rw [List.mem_singleton.mp hi]
      exact ⟨hpos, hfits⟩
  · rw [List.pairwise_append]
    refine ⟨h.ordered, List.pairwise_singleton .., fun i hi j hj => ?_⟩
    rw [List.mem_singleton.mp hj]
    exact hnext i hi
  · intro i hi
    rcases List.mem_append.mp hi with hi | hi
    · exact hheld i hi
    · rw [List.mem_singleton.mp hi]
      exact ⟨s.identity, hholds, rfl, Nat.le_refl _⟩

theorem remembered (hwell : files.WellFormed) (h : Lives dir agent files lives files') :
    Remembered dir agent lives files' := by
  induction h with
  | start => exact remembered_nil hwell
  | elsewhere _ hwell' hsame ih => exact ih.of_same hwell' fun _ hread => hsame.trans hread
  | broken _ hleaves hfits ih =>
      obtain ⟨hwell', ⟨s, hrun, rfl⟩ | hsame⟩ := hleaves.spec ih.wellFormed
      · exact (ih.run hrun (hfits s hrun)).1
      · exact ih.of_same hwell' hsame
  | completed _ hrun hfits ih => exact (ih.run hrun hfits).2

/-- A start that finds the file unreadable gives up. -/
theorem run_of_corrupt {bs : Bytes} (hread : files.read (Start.place dir agent) = .ok bs)
    (hcorrupt : Identity.decode? bs = none) (fresh : String) :
    Start.run fresh dir agent files = .error .corrupt := by
  rw [Start.run, hread, Start.identity?, hcorrupt]
  rfl

/-- An unreadable file stays as it is, and no start is completed. -/
theorem of_corrupt (hwell : files.WellFormed) {bs : Bytes}
    (hread : files.read (Start.place dir agent) = .ok bs) (hcorrupt : Identity.decode? bs = none)
    (h : Lives dir agent files lives files') :
    lives = [] ∧ files'.read (Start.place dir agent) = .ok bs := by
  induction h with
  | start => exact ⟨rfl, hread⟩
  | elsewhere _ _ hsame ih => exact ⟨ih.1, hsame.trans ih.2⟩
  | broken h hleaves _ ih =>
      refine ⟨ih.1, ?_⟩
      obtain ⟨-, ⟨s, hrun, -⟩ | hsame⟩ := hleaves.spec (h.remembered hwell).wellFormed
      · rw [run_of_corrupt ih.2 hcorrupt] at hrun
        cases hrun
      · exact hsame bs ih.2
  | completed _ hrun _ ih =>
      rw [run_of_corrupt ih.2 hcorrupt] at hrun
      cases hrun

end Lives

/-! ## Reports -/

/-- A report that the agent may send in a life: its number is the one of the life. -/
def Identity.Reports (i : Identity) (agent : String) (h : Heartbeat) : Prop :=
  ∃ (a : Agent) (state : AgentState) (identifier : String) (timestamp : Int64),
    a.name = agent ∧ a.seqnum = i.sequence.toUInt64 ∧ h = a.heartbeat state identifier timestamp

theorem Identity.Reports.spec {i : Identity} {agent : String} {h : Heartbeat} (hreports : i.Reports agent h)
    (hfits : i.sequence < UInt64.size) : h.name = agent ∧ h.seqnum.toNat = i.sequence := by
  obtain ⟨a, state, identifier, timestamp, hname, hseqnum, rfl⟩ := hreports
  refine ⟨hname, ?_⟩
  change a.seqnum.toNat = i.sequence
  rw [hseqnum]
  exact UInt64.toNat_ofNat_of_lt' hfits

/-- The filter after reports of any agents. -/
def Filter.offerReports (f : Filter) (hs : List Heartbeat) : Filter :=
  f.offerAll (hs.map fun h => (h.name, .ofHeartbeat h))

namespace Filter

theorem mem_known_reports {f : Filter} {hs : List Heartbeat} {agent : String} {t : Stamp} :
    t ∈ f.known (hs.map fun h => (h.name, .ofHeartbeat h)) agent ↔
      f.get? agent = some t ∨ ∃ h ∈ hs, h.name = agent ∧ .ofHeartbeat h = t := by
  simp [known]

/-- A report is taken in when all that is known of its agent has smaller numbers. -/
theorem decide_eq_accepted {f : Filter} {hs : List Heartbeat} {h : Heartbeat}
    (hstored : ∀ t, f.get? h.name = some t → t.seqnum < h.seqnum)
    (hoffered : ∀ h' ∈ hs, h'.name = h.name → h'.seqnum < h.seqnum) :
    ((f.offerReports hs).decide h.name (.ofHeartbeat h)).1 = .accepted := by
  rw [offerReports, accepted_iff]
  intro t ht
  rcases mem_known_reports.mp ht with ht | ⟨h', hmem, hname, rfl⟩
  · exact .inl (hstored t ht)
  · exact .inl (hoffered h' hmem hname)

/-- A report is refused after one of its agent with a greater number. -/
theorem decide_eq_staleSeq {f : Filter} {hs : List Heartbeat} {h h' : Heartbeat} (hmem : h' ∈ hs)
    (hname : h'.name = h.name) (hlater : h.seqnum < h'.seqnum) :
    ∃ stored, ((f.offerReports hs).decide h.name (.ofHeartbeat h)).1 = .staleSeq stored := by
  have hknown : Stamp.ofHeartbeat h' ∈ f.known (hs.map fun h => (h.name, .ofHeartbeat h)) h.name :=
    mem_known_reports.mpr (.inr ⟨h', hmem, hname, rfl⟩)
  obtain ⟨hnone, hlast⟩ := f.get?_offerAll_spec (hs.map fun h => (h.name, .ofHeartbeat h)) h.name
  rw [decide_fst, offerReports]
  cases hstored : (f.offerAll (hs.map fun h => (h.name, .ofHeartbeat h))).get? h.name with
  | none =>
      rw [hnone hstored] at hknown
      cases hknown
  | some t =>
      have hnot := (hlast t hstored).not_before _ hknown
      have hless : h.seqnum < t.seqnum := by
        rw [Stamp.before_iff] at hnot
        rw [UInt64.lt_iff_toNat_lt] at hlater ⊢
        change ¬(t.seqnum.toNat < h'.seqnum.toNat ∨ _) at hnot
        omega
      exact ⟨t.seqnum, by rw [judge]; exact if_pos hless⟩

end Filter

/-! ## Restarts -/

namespace Lives.Remembered

variable {dir : Location} {agent : String} {files : FileTree} {lives : List Identity}
  {i : Identity} {h : Heartbeat} {f : Filter} {delivered : List Heartbeat}

/-- The first report of a life is taken in, unless one of a later life has come. -/
theorem accepts_first (hlives : Remembered dir agent lives files)
    (hstored : ∀ t, f.get? agent = some t → ∀ i ∈ lives, t.seqnum.toNat < i.sequence)
    (hdelivered : ∀ h ∈ delivered, h.name = agent → ∃ i ∈ lives, i.Reports agent h)
    (hi : i ∈ lives) (hreports : i.Reports agent h)
    (hfirst : ∀ h' ∈ delivered, ¬i.Reports agent h')
    (hlater : ∀ j ∈ lives, i.sequence < j.sequence → ∀ h' ∈ delivered, ¬j.Reports agent h') :
    ((f.offerReports delivered).decide agent (.ofHeartbeat h)).1 = .accepted := by
  obtain ⟨rfl, hseqnum⟩ := hreports.spec (hlives.bounds i hi).2
  refine Filter.decide_eq_accepted (fun t ht => ?_) (fun h' hmem hname => ?_)
  · rw [UInt64.lt_iff_toNat_lt, hseqnum]
    exact hstored t ht i hi
  · obtain ⟨j, hj, hreports'⟩ := hdelivered h' hmem hname
    have hseqnum' := (hreports'.spec (hlives.bounds j hj).2).2
    rw [UInt64.lt_iff_toNat_lt, hseqnum, hseqnum']
    -- A report of an equal number would be one of the same life.
    have hne : j.sequence ≠ i.sequence := fun heq =>
      hfirst h' hmem (by rwa [Identity.Reports, ← heq])
    have hle : ¬i.sequence < j.sequence := fun hlt => hlater j hj hlt h' hmem hreports'
    omega

/-- After a report of a later life those of earlier ones are refused. -/
theorem refuses_earlier (hlives : Remembered dir agent lives files) {j : Identity} {h' : Heartbeat}
    (hi : i ∈ lives) (hreports : i.Reports agent h) (hj : j ∈ lives) (hlt : i.sequence < j.sequence)
    (hmem : h' ∈ delivered) (hreports' : j.Reports agent h') :
    ∃ stored, ((f.offerReports delivered).decide agent (.ofHeartbeat h)).1 = .staleSeq stored := by
  obtain ⟨rfl, hseqnum⟩ := hreports.spec (hlives.bounds i hi).2
  obtain ⟨hname, hseqnum'⟩ := hreports'.spec (hlives.bounds j hj).2
  refine Filter.decide_eq_staleSeq hmem hname ?_
  rw [UInt64.lt_iff_toNat_lt, hseqnum, hseqnum']
  exact hlt

end Lives.Remembered

/-- Whatever becomes of the starts of an agent: those that are completed run under one identity and under
positive numbers, each greater than the ones before, and an unreadable file stays as it is and lets none
through. So the first report of a life is taken in, whatever has come from earlier lives and from other
agents and whatever the clocks say, unless one of a later life has come; and after a report of a later
life it is refused. -/
theorem restart_is_no_replay {dir : Location} {agent : String} {files files' : FileTree}
    {lives : List Identity} (hwell : files.WellFormed) (hlives : Lives dir agent files lives files') :
    (∀ i ∈ lives, 0 < i.sequence ∧ i.sequence < UInt64.size) ∧
      lives.Pairwise (fun i j => i.identity = j.identity ∧ i.sequence < j.sequence) ∧
      (∀ bs, files.read (Start.place dir agent) = .ok bs → Identity.decode? bs = none →
        lives = [] ∧ files'.read (Start.place dir agent) = .ok bs ∧
          ∀ fresh, Start.run fresh dir agent files' = .error .corrupt) ∧
      ∀ (f : Filter) (delivered : List Heartbeat),
        (∀ t, f.get? agent = some t → ∀ i ∈ lives, t.seqnum.toNat < i.sequence) →
        (∀ h ∈ delivered, h.name = agent → ∃ i ∈ lives, i.Reports agent h) →
        ∀ i ∈ lives, ∀ h, i.Reports agent h →
          ((∀ h' ∈ delivered, ¬i.Reports agent h') →
            (∀ j ∈ lives, i.sequence < j.sequence → ∀ h' ∈ delivered, ¬j.Reports agent h') →
            ((f.offerReports delivered).decide agent (.ofHeartbeat h)).1 = .accepted) ∧
          ((∃ j ∈ lives, i.sequence < j.sequence ∧ ∃ h' ∈ delivered, j.Reports agent h') →
            ∃ stored,
              ((f.offerReports delivered).decide agent (.ofHeartbeat h)).1 = .staleSeq stored) := by
  have hremembered := hlives.remembered hwell
  refine ⟨hremembered.bounds, hremembered.ordered, ?_, ?_⟩
  · intro bs hread hcorrupt
    obtain ⟨hnone, hread'⟩ := hlives.of_corrupt hwell hread hcorrupt
    exact ⟨hnone, hread', Lives.run_of_corrupt hread' hcorrupt⟩
  · intro f delivered hstored hdelivered i hi h hreports
    refine ⟨hremembered.accepts_first hstored hdelivered hi hreports, ?_⟩
    rintro ⟨j, hj, hlt, h', hmem, hreports'⟩
    exact hremembered.refuses_earlier hi hreports hj hlt hmem hreports'

/-- The second start is broken off while it writes, the third one when its file is in place; neither has
run. The first report of the fourth start is taken in after one of the first start that bears a later
time, and that one is refused afterwards. -/
theorem restart_is_no_replay_crashed :
    let dir : Location := ["data"]
    let start (fresh : String) (files : FileTree) : Start :=
      (Start.run fresh dir "edge-1" files).toOption.getD ⟨.first "", []⟩
    let s₁ := start "a" .empty
    let torn : FileTree := ⟨(["data", "edge-1.json.tmp"], .file [123]) :: s₁.files.nodes⟩
    let s₃ := start "c" torn
    let s₄ := start "d" s₃.files
    let old := (Agent.start "edge-1" 1 "amd64" ⟨[], none, none, none⟩).heartbeat .registering "x" 900
    let new := (Agent.start "edge-1" 3 "amd64" ⟨[], none, none, none⟩).heartbeat .registering "y" 5
    [s₁.identity, s₄.identity] = [⟨"a", 1⟩, ⟨"a", 3⟩] ∧
      Lives dir "edge-1" .empty [s₁.identity, s₄.identity] s₄.files ∧
      ((Filter.empty.offerReports [old]).decide "edge-1" (.ofHeartbeat new)).1 = .accepted ∧
      ∃ stored, ((Filter.empty.offerReports [new]).decide "edge-1" (.ofHeartbeat old)).1 =
        .staleSeq stored := by
  intro dir start s₁ torn s₃ s₄ old new
  have hids : [s₁.identity, s₄.identity] = [⟨"a", 1⟩, ⟨"a", 3⟩] := by decide +kernel
  have hfirst : Start.run "a" dir "edge-1" .empty = .ok s₁ := by decide +kernel
  have hsecond : Start.run "b" dir "edge-1" s₁.files = .ok (start "b" s₁.files) := by
    decide +kernel
  have hthird : Start.run "c" dir "edge-1" torn = .ok s₃ := by decide +kernel
  have hfourth : Start.run "d" dir "edge-1" s₃.files = .ok s₄ := by decide +kernel
  have htorn : Start.Leaves "b" dir "edge-1" s₁.files torn := by
    have hmade : s₁.files.makeFolders dir = .ok s₁.files := by decide +kernel
    have hwrite : s₁.files.write (Start.draft dir "edge-1") [123] = .ok torn := by decide +kernel
    exact .drafted (Start.run_eq_ok hsecond).1 hmade hwrite
  have hlives : Lives dir "edge-1" .empty [s₁.identity, s₄.identity] s₄.files := by
    have h₁ : Lives dir "edge-1" .empty [s₁.identity] s₁.files :=
      .completed .start hfirst (by decide +kernel)
    have h₂ : Lives dir "edge-1" .empty [s₁.identity] torn := .broken h₁ htorn fun s hs => by
      rw [← Except.ok.inj (hsecond.symm.trans hs)]
      decide +kernel
    have h₃ : Lives dir "edge-1" .empty [s₁.identity] s₃.files :=
      .broken h₂ (.placed hthird) fun s hs => by
        rw [← Except.ok.inj (hthird.symm.trans hs)]
        decide +kernel
    exact .completed h₃ hfourth (by decide +kernel)
  have hold : (⟨"a", 1⟩ : Identity).Reports "edge-1" old := ⟨_, _, _, _, rfl, rfl, rfl⟩
  have hnew : (⟨"a", 3⟩ : Identity).Reports "edge-1" new := ⟨_, _, _, _, rfl, rfl, rfl⟩
  obtain ⟨-, -, -, hfilter⟩ := restart_is_no_replay FileTree.WellFormed.empty hlives
  rw [hids] at hfilter
  refine ⟨hids, hlives, ?_, ?_⟩
  · have hstale := (hfilter .empty [old] (by simp [Filter.empty, Filter.get?])
      (fun h hh _ => ⟨⟨"a", 1⟩, by simp, List.mem_singleton.mp hh ▸ hold⟩) ⟨"a", 3⟩ (by simp) new hnew).1
    refine hstale ?_ ?_
    · intro h' hh' hreports
      rw [List.mem_singleton.mp hh'] at hreports
      exact absurd (hreports.spec (by decide)).2 (by decide)
    · simp
  · exact (hfilter .empty [new] (by simp [Filter.empty, Filter.get?])
      (fun h hh _ => ⟨⟨"a", 3⟩, by simp, List.mem_singleton.mp hh ▸ hnew⟩) ⟨"a", 1⟩ (by simp) old hold).2
      ⟨⟨"a", 3⟩, by simp, by decide, new, by simp, hnew⟩

end EdgeFleet
