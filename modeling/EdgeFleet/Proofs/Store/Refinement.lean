import EdgeFleet.Proofs.Store.Exchange

/-! # Files as good as memory

A store in files answers every call as one in memory does that has seen the same calls. What else lies in its folders
does not matter as long as it is not taken for a chunk.
-/

namespace EdgeFleet

/-! ## Files that appear -/

/-- A call, or a file that somebody else writes. -/
inductive StoreEvent where
  | called (call : StoreCall)
  | strayed (l : Location) (content : Bytes)

namespace StoreEvent

def call? : StoreEvent → Option StoreCall
  | called call => some call
  | strayed _ _ => none

/-- Other files are neither where the folder of a namespace in use belongs nor where they would pass for chunks. -/
def Fits (used : String → Prop) (root : Location) : StoreEvent → Prop
  | called call => call.Fits used
  | strayed l _ => ∀ ns, used ns →
      l ≠ root.join ns ∧ ∀ file, extension? file = some "json" → l ≠ root.join ns ++ [file]

def HasRoom : StoreEvent → Prop
  | called call => call.HasRoom
  | strayed _ _ => True

end StoreEvent

namespace DirectoryStore

/-- Somebody writes a file, if it can be written. -/
def leave (s : DirectoryStore) (l : Location) (content : Bytes) : DirectoryStore :=
  match s.files.write l content with
  | .ok files => { s with files }
  | .error _ => s

/-- Performs calls while files appear; yields the replies. -/
def performAmid (s : DirectoryStore) : List StoreEvent → List StoreReply × DirectoryStore
  | [] => ([], s)
  | .called call :: es =>
    let (reply, s) := perform s call
    let (replies, s) := performAmid s es
    (reply :: replies, s)
  | .strayed l content :: es => performAmid (s.leave l content) es

end DirectoryStore

/-! ## The same chunks in both -/

/-- In the namespaces in use, the files of chunks are those of the chunks in memory, and neither a file nor a
folder is where it would be in the way. -/
structure Mirrors (used : String → Prop) (d : DirectoryStore) (m : MemoryStore) : Prop where
  namespaces : ∀ ns, used ns → IsNamespace ns
  wellFormed : d.files.WellFormed
  root : d.files.node? d.root = some .folder
  nameable : FileTree.isNameable d.root = .ok ()
  noFile : ∀ ns, used ns → ∀ content, d.files.node? (d.folder ns) ≠ some (.file content)
  noFolder : ∀ ns, used ns → ∀ file, d.child? ns file ≠ some .folder
  up : m.IsUp
  kept : ∀ ns, used ns → ∀ name c, (m.inNamespace ns).get? name = some c →
    c.ns = ns ∧ c.name = name ∧ Suits ".json.tmp" name
  entries : ∀ ns, used ns → ∀ name, name.toList ≠ [] →
    d.child? ns (name ++ ".json") = ((m.inNamespace ns).get? name).map fun c => .file c.encode

namespace Mirrors

variable {used : String → Prop} {d : DirectoryStore} {m : MemoryStore} {ns name : String} {c : Chunk}

section

variable (h : Mirrors used d m) (hns : used ns)

include h hns

theorem isOpen : d.files.IsOpen (d.folder ns) := by
  intro front content hfront hfile
  rw [d.folder_eq (h.namespaces ns hns)] at hfront
  rcases List.prefix_concat_iff.mp hfront with rfl | hfront
  · rw [← d.folder_eq (h.namespaces ns hns)] at hfile
    exact h.noFile ns hns content hfile
  · rw [h.wellFormed.folders_of_folder h.root hfront] at hfile
    cases hfile

theorem nameable_folder : FileTree.isNameable (d.folder ns) = .ok () := by
  have hsuits := (h.namespaces ns hns).suits
  rw [d.folder_eq (h.namespaces ns hns)]
  exact FileTree.isNameable_concat.mpr ⟨h.nameable, hsuits.noNul, by simpa using hsuits.short⟩

theorem nameable_child {ending : String} (hending : '\x00' ∉ ending.toList) (hname : Suits ending name) :
    FileTree.isNameable (d.folder ns ++ [name ++ ending]) = .ok () := by
  exact FileTree.isNameable_concat.mpr ⟨h.nameable_folder hns, by simp [hname.noNul, hending], hname.short⟩

/-- Whatever could be read as a chunk is the file of one. -/
theorem exists_of_child {file : String} {n : FileNode} (hext : extension? file = some "json")
    (hentry : d.child? ns file = some n) :
    ∃ c, (m.inNamespace ns).get? c.name = some c ∧ file = DirectoryStore.fileOf c ∧ n = .file c.encode := by
  obtain ⟨front, hfront, hfile⟩ := exists_of_extension? hext
  have hname : file = String.ofList front ++ ".json" := String.toList_inj.mp (by simpa using hfile)
  rw [hname, h.entries ns hns _ (by simpa using hfront), Option.map_eq_some_iff] at hentry
  obtain ⟨c, hc, rfl⟩ := hentry
  obtain ⟨-, hcname, -⟩ := h.kept ns hns _ c hc
  exact ⟨c, hcname ▸ hc, by rw [DirectoryStore.fileOf, hcname, hname], rfl⟩

theorem filed : DirectoryStore.Filed ns d := by
  refine ⟨h.wellFormed, fun file content c hext hentry hdecode => ?_⟩
  obtain ⟨c', hc', rfl, hcontent⟩ := h.exists_of_child hns hext hentry
  cases hcontent
  rw [Chunk.decode?_encode] at hdecode
  cases hdecode
  exact d.place_of_isFileName ns (h.kept ns hns _ _ hc').2.2.step

theorem readable : DirectoryStore.Readable ns d := by
  refine ⟨h.nameable_folder hns, h.isOpen hns, fun file n hext hentry => ?_⟩
  obtain ⟨c, hc, rfl, rfl⟩ := h.exists_of_child hns hext hentry
  have hsuits := (h.kept ns hns _ _ hc).2.2
  exact ⟨⟨_, rfl⟩, h.nameable_child hns (by decide) hsuits.of_draft⟩

theorem holds_iff : DirectoryStore.Holds ns d c ↔ (m.inNamespace ns).get? c.name = some c := by
  constructor
  · rintro ⟨file, content, hext, hentry, hdecode⟩
    obtain ⟨c', hc', -, hcontent⟩ := h.exists_of_child hns hext hentry
    cases hcontent
    rw [Chunk.decode?_encode] at hdecode
    cases hdecode
    exact hc'
  · intro hc
    have hname := (h.kept ns hns _ _ hc).2.2.step
    refine ⟨DirectoryStore.fileOf c, c.encode, DirectoryStore.extension?_fileOf hname, ?_, Chunk.decode?_encode c⟩
    rw [DirectoryStore.fileOf, h.entries ns hns _ hname.1, hc]
    rfl

theorem list_eq : d.list ns = .ok (d.found ns) ∧ (d.found ns).Perm (m.inNamespace ns).values := by
  have hlist : d.list ns = .ok (d.found ns) := by
    rcases DirectoryStore.list_spec h.wellFormed with ⟨-, hlist⟩ | ⟨hnot, -⟩
    · exact hlist
    · exact absurd (h.readable hns) hnot
  have hfiled : LawfulStore.Valid ns m := fun k c hk => (h.kept ns hns k c hk).2.1
  exact ⟨hlist, list_perm_of_holds (s := d) (h.filed hns) hfiled (fun c => h.holds_iff hns) hlist
    (MemoryStore.list_eq_ok.mpr ⟨h.up.notDown, rfl⟩)⟩

end

/-! ### Locations of a store -/

section

variable {ns' file file' : String}

theorem root_ne_child (h : Mirrors used d m) (hns : used ns) : d.root ≠ d.folder ns ++ [file] := fun heq => by
  rw [d.folder_eq (h.namespaces ns hns)] at heq
  simpa using congrArg List.length heq

theorem folder_ne_child (h : Mirrors used d m) (hns : used ns) (hns' : used ns') :
    d.folder ns ≠ d.folder ns' ++ [file] := fun heq => by
  rw [d.folder_eq (h.namespaces ns hns), d.folder_eq (h.namespaces ns' hns')] at heq
  simpa using congrArg List.length heq

theorem not_child_prefix (h : Mirrors used d m) (hns : used ns) (hns' : used ns') :
    ¬d.folder ns ++ [file] <+: d.folder ns' := fun hfront => by
  have hlength := hfront.length_le
  rw [d.folder_eq (h.namespaces ns hns), d.folder_eq (h.namespaces ns' hns')] at hlength
  simp at hlength

theorem child_inj (h : Mirrors used d m) (hns : used ns) (hns' : used ns')
    (heq : d.folder ns ++ [file] = d.folder ns' ++ [file']) : ns = ns' ∧ file = file' := by
  rw [d.folder_eq (h.namespaces ns hns), d.folder_eq (h.namespaces ns' hns')] at heq
  simpa using heq

end

/-! ### Steps -/

/-- One chunk comes or goes, a draft may go, and a folder may come. -/
theorem change (h : Mirrors used d m) (hns : used ns) (name : String) (o : Option Chunk) {files : FileTree}
    {m' : MemoryStore} (hwell : files.WellFormed) (hup : m'.IsUp)
    (hplace : files.node? (d.folder ns ++ [name ++ ".json"]) = o.map fun c => .file c.encode)
    (hother : ∀ l, l ≠ d.folder ns ++ [name ++ ".json"] → files.node? l = d.files.node? l ∨
      l = d.folder ns ++ [name ++ ".json.tmp"] ∧ files.node? l = none ∨
        l <+: d.folder ns ∧ files.node? l = some .folder)
    (hchunks : ∀ ns' name', (m'.inNamespace ns').get? name' =
      if ns' = ns ∧ name' = name then o else (m.inNamespace ns').get? name')
    (hkept : ∀ c, o = some c → c.ns = ns ∧ c.name = name ∧ Suits ".json.tmp" name) :
    Mirrors used { d with files } m' := by
  refine ⟨h.namespaces, hwell, ?_, h.nameable, fun ns' hns' content hfile => ?_, fun ns' hns' file hfolder => ?_,
    hup, fun ns' hns' name' c hc => ?_, fun ns' hns' name' hname' => ?_⟩
  · rcases hother d.root (h.root_ne_child hns) with hsame | ⟨hdraft, -⟩ | ⟨-, hfolder⟩
    · exact hsame.trans h.root
    · exact absurd hdraft (h.root_ne_child hns)
    · exact hfolder
  · have hfile : files.node? (d.folder ns') = some (.file content) := hfile
    rcases hother _ (h.folder_ne_child hns' hns) with hsame | ⟨-, hnone⟩ | ⟨-, hfolder⟩
    · exact h.noFile ns' hns' content (hsame.symm.trans hfile)
    · cases hnone.symm.trans hfile
    · cases hfolder.symm.trans hfile
  · -- A folder that came is on the way to the namespace, and so is no entry of any.
    have hfolder : files.node? (d.folder ns' ++ [file]) = some .folder := hfolder
    by_cases hl : d.folder ns' ++ [file] = d.folder ns ++ [name ++ ".json"]
    · rw [hl, hplace] at hfolder
      cases o <;> cases hfolder
    · rcases hother _ hl with hsame | ⟨-, hnone⟩ | ⟨hfront, -⟩
      · exact h.noFolder ns' hns' file (hsame.symm.trans hfolder)
      · cases hnone.symm.trans hfolder
      · exact h.not_child_prefix hns' hns hfront
  · rw [hchunks] at hc
    split at hc
    · next heq =>
      obtain ⟨rfl, rfl⟩ := heq
      exact hkept c hc
    · exact h.kept ns' hns' name' c hc
  · rw [hchunks]
    change files.node? (d.folder ns' ++ [name' ++ ".json"]) = _
    split
    · next heq =>
      obtain ⟨rfl, rfl⟩ := heq
      exact hplace
    · next hne =>
      have hl : d.folder ns' ++ [name' ++ ".json"] ≠ d.folder ns ++ [name ++ ".json"] := fun heq => by
        obtain ⟨rfl, hfile⟩ := h.child_inj hns' hns heq
        exact hne ⟨rfl, by simpa using hfile⟩
      rcases hother _ hl with hsame | ⟨hdraft, -⟩ | ⟨hfront, -⟩
      · exact hsame.trans (h.entries ns' hns' name' hname')
      · -- The draft that went does not end like the file of a chunk.
        have hends := congrArg extension? (h.child_inj hns' hns hdraft).2
        rw [DirectoryStore.extension?_json hname', DirectoryStore.extension?_tmp] at hends
        exact absurd hends (by decide)
      · exact absurd hfront (h.not_child_prefix hns' hns)

/-- The counts of calls play no part. -/
theorem of_chunks (h : Mirrors used d m) {m' : MemoryStore} (hup : m'.IsUp) (hchunks : m'.chunks = m.chunks) :
    Mirrors used d m' := by
  have hsame : ∀ ns, m'.inNamespace ns = m.inNamespace ns := fun ns => by
    rw [MemoryStore.inNamespace, hchunks]
    rfl
  refine ⟨h.namespaces, h.wellFormed, h.root, h.nameable, h.noFile, h.noFolder, hup, ?_, ?_⟩
  · simpa only [hsame] using h.kept
  · simpa only [hsame] using h.entries

theorem create (h : Mirrors used d m) (hns : used c.ns) (hname : Suits ".json.tmp" c.name) :
    (d.create c).1 = (m.create c).1 ∧ ((d.create c).1 ≠ .ok () → (d.create c).2 = d) ∧
      Mirrors used (d.create c).2 (m.create c).2 := by
  have hplace := h.nameable_child hns (by decide) hname.of_draft
  have hentry := h.entries c.ns hns c.name hname.step.1
  cases htaken : (m.inNamespace c.ns).get? c.name with
  | some c' =>
      rw [htaken] at hentry
      have hmem : (m.inNamespace c.ns).get? c.name ≠ none := by simp [htaken]
      rw [d.create_of_taken h.wellFormed hname.step hplace hentry, MemoryStore.create_of_taken h.up hmem]
      exact ⟨rfl, fun _ => rfl, h.of_chunks ⟨h.up.1, h.up.2, h.up.3⟩ rfl⟩
  | none =>
      rw [htaken] at hentry
      have hdraft := DirectoryStore.fileOf_tmp c
      obtain ⟨files, hcreate, hwell, hnode⟩ := d.create_of_free h.wellFormed hname.step hplace
        (hdraft ▸ h.nameable_child hns (by decide) hname) (h.isOpen hns) hentry (h.noFolder c.ns hns _)
      rw [hcreate, MemoryStore.create_of_free h.up htaken]
      refine ⟨rfl, fun hfail => absurd rfl hfail,
        h.change hns c.name (some c) hwell ⟨h.up.1, h.up.2, h.up.3⟩ ?_
          (fun l (hl : l ≠ d.folder c.ns ++ [DirectoryStore.fileOf c]) => ?_) (fun ns' name' => ?_) ?_⟩
      · exact (hnode _).trans (if_pos rfl)
      · rw [hnode, if_neg hl, hdraft]
        split
        · next heq => exact .inr (.inl ⟨heq, rfl⟩)
        · split
          · next hfront => exact .inr (.inr ⟨hfront, rfl⟩)
          · exact .inl rfl
      · exact MemoryStore.get?_inNamespace_put _ c ns' name'
      · rintro _ ⟨⟩
        exact ⟨rfl, rfl, hname⟩

/-- A name that leaves no room for the ending of a draft is that of no chunk. -/
theorem get?_of_long (h : Mirrors used d m) (hns : used ns) (hlong : maxName < (name ++ ".json.tmp").utf8ByteSize) :
    (m.inNamespace ns).get? name = none := by
  by_contra hsome
  obtain ⟨c, hc⟩ := Option.ne_none_iff_exists'.mp hsome
  exact Nat.not_le.mpr hlong (h.kept ns hns name c hc).2.2.short

/-- The creation of a chunk with such a name fails. -/
theorem create_of_long (h : Mirrors used d m) (hns : used c.ns) (hname : IsStep c.name)
    (hlong : maxName < (c.name ++ ".json.tmp").utf8ByteSize) :
    (d.create c).1 = .error (.io .invalidFilename) := by
  obtain ⟨made, hmake, hopens⟩ := FileTree.exists_makeFolders h.wellFormed (h.nameable_folder hns) (h.isOpen hns)
  have hfolder := hopens.folder _ (List.prefix_refl _)
  have hcheck : made.checkFolder (d.folder c.ns) = .ok () :=
    FileTree.checkFolder_eq_ok.mpr ⟨hopens.wellFormed.isOpen_of_folder hfolder, hfolder⟩
  have hplace : ({ d with files := made } : DirectoryStore).place c.ns c.name = d.folder c.ns ++ [c.name ++ ".json"] :=
    DirectoryStore.place_eq _ hname.step
  have hdraft : ({ d with files := made } : DirectoryStore).draft c.ns c.name =
      d.folder c.ns ++ [c.name ++ ".json.tmp"] :=
    DirectoryStore.fileOf_tmp c ▸ DirectoryStore.draft_eq _ hname.step
  have hfind : ∀ name, '\x00' ∉ name.toList → maxName < name.utf8ByteSize →
      made.find (d.folder c.ns ++ [name]) = .error .invalidFilename := fun name hnul hlong' => by
    rw [FileTree.find_of_long (h.nameable_folder hns) hnul hlong', hcheck]
    rfl
  by_cases hfits : (c.name ++ ".json").utf8ByteSize ≤ maxName
  · have hfree : made.node? (d.folder c.ns ++ [c.name ++ ".json"]) = none := by
      have hchild := h.entries c.ns hns c.name hname.step.1
      rw [h.get?_of_long hns hlong] at hchild
      exact ((hopens.node? _).trans (if_neg (h.not_child_prefix hns hns))).trans hchild
    have hexist : made.exist (d.folder c.ns ++ [c.name ++ ".json"]) = .ok false := by
      refine FileTree.exist_eq_false.mpr (.inl ?_)
      rw [hopens.wellFormed.find_in_folder hfolder (h.nameable_child hns (by decide) ⟨hname, hfits⟩), hfree]
    have hwrite : made.write (d.folder c.ns ++ [c.name ++ ".json.tmp"]) c.encode = .error .invalidFilename := by
      rw [FileTree.write, hfind _ (by simp [hname.noNul]) hlong]
      rfl
    simp only [DirectoryStore.create, hmake, DirectoryStore.createIn, hplace, hdraft, hexist, hwrite]
  · have hexist : made.exist (d.folder c.ns ++ [c.name ++ ".json"]) = .error .invalidFilename := by
      rw [FileTree.exist, hfind _ (by simp [hname.noNul]) (Nat.lt_of_not_le hfits)]
    simp only [DirectoryStore.create, hmake, DirectoryStore.createIn, hplace, hexist]

theorem suits_of_create (h : Mirrors used d m) (hns : used c.ns) (hname : IsStep c.name)
    (hcalm : meetsFault (d.create c).1 = false) : Suits ".json.tmp" c.name := by
  refine ⟨hname, Nat.le_of_not_lt fun hlong => ?_⟩
  rw [h.create_of_long hns hname hlong] at hcalm
  cases hcalm

theorem delete (h : Mirrors used d m) (hns : used ns) (hname : Suits ".json" name) :
    (d.delete ns name).1 = (m.delete ns name).1 ∧ Mirrors used (d.delete ns name).2 (m.delete ns name).2 := by
  have hplace := h.nameable_child hns (by decide) hname
  have hentry := h.entries ns hns name hname.step.1
  cases htaken : (m.inNamespace ns).get? name with
  | some c =>
      rw [htaken] at hentry
      have hmem : (m.inNamespace ns).get? name ≠ none := by simp [htaken]
      obtain ⟨files, hdelete, hwell, hnode⟩ := d.delete_of_taken h.wellFormed hname.step hplace hentry
      rw [hdelete, MemoryStore.delete_of_taken h.up hmem]
      refine ⟨rfl, h.change hns name none hwell ⟨h.up.1, h.up.2, h.up.3⟩ ?_ (fun l hl => ?_)
        (fun ns' name' => ?_) (by simp)⟩
      · exact (hnode _).trans (if_pos rfl)
      · exact .inl ((hnode l).trans (if_neg hl))
      · exact MemoryStore.get?_inNamespace_erase _ ns name ns' name'
  | none =>
      rw [htaken] at hentry
      rw [d.delete_of_free h.wellFormed hname.step hplace (h.isOpen hns) hentry, MemoryStore.delete_of_free h.up htaken]
      exact ⟨rfl, h.of_chunks ⟨h.up.1, h.up.2, h.up.3⟩ rfl⟩

/-- The deletion of a chunk whose file could not have its name fails, or finds nothing. -/
theorem delete_of_long (h : Mirrors used d m) (hns : used ns) (hname : IsStep name)
    (hlong : maxName < (name ++ ".json").utf8ByteSize) :
    d.delete ns name = (.error (.notFound name), d) ∨ d.delete ns name = (.error (.io .invalidFilename), d) := by
  have hfind : d.files.find (d.folder ns ++ [name ++ ".json"]) =
      (d.files.checkFolder (d.folder ns)).bind fun _ => .error .invalidFilename :=
    FileTree.find_of_long (h.nameable_folder hns) (by simp [hname.noNul]) hlong
  rcases FileTree.checkFolder_cases d.files (d.folder ns) with ⟨hclosed, -⟩ | ⟨-, -, hcheck⟩ | ⟨-, -, hcheck⟩
  · exact absurd (h.isOpen hns) hclosed
  · have hremove : d.files.remove (d.folder ns ++ [name ++ ".json"]) = .error .invalidFilename := by
      rw [FileTree.remove, hfind, hcheck]
      rfl
    exact .inr (by simp only [DirectoryStore.delete, d.place_of_isFileName ns hname.step, hremove])
  · have hremove : d.files.remove (d.folder ns ++ [name ++ ".json"]) = .error .notFound := by
      rw [FileTree.remove, hfind, hcheck]
      rfl
    exact .inl (by simp only [DirectoryStore.delete, d.place_of_isFileName ns hname.step, hremove])

theorem step_of_hasRoom (h : Mirrors used d m) {call : StoreCall} (hfits : call.Fits used) (hroom : call.HasRoom) :
    (perform d call).1.Same (perform m call).1 ∧ Mirrors used (perform d call).2 (perform m call).2 := by
  cases call with
  | list ns =>
      obtain ⟨hlist, hperm⟩ := h.list_eq hfits
      have hlist' : m.list ns = .ok (m.inNamespace ns).values := MemoryStore.list_eq_ok.mpr ⟨h.up.notDown, rfl⟩
      have hreply : (perform d (.list ns)).1 = .listed (.ok (d.found ns)) := congrArg StoreReply.listed hlist
      have hreply' : (perform m (.list ns)).1 = .listed (.ok (m.inNamespace ns).values) :=
        congrArg StoreReply.listed hlist'
      rw [hreply, hreply']
      exact ⟨hperm, h⟩
  | create c =>
      obtain ⟨hsame, -, hmirrors⟩ := h.create hfits.1 ⟨hfits.2, hroom⟩
      exact ⟨hsame, hmirrors⟩
  | delete ns name => exact h.delete hfits.1 ⟨hfits.2, hroom⟩

theorem isCalm_of_hasRoom (h : Mirrors used d m) {call : StoreCall} (hfits : call.Fits used)
    (hroom : call.HasRoom) : (perform d call).1.isCalm = true :=
  (h.step_of_hasRoom hfits hroom).1.isCalm_eq.trans (MemoryStore.isCalm_perform h.up call)

/-- A call that does not fail is answered alike, and leaves the same chunks. -/
theorem step (h : Mirrors used d m) {call : StoreCall} (hfits : call.Fits used)
    (hcalm : (perform d call).1.isCalm = true) :
    (perform d call).1.Same (perform m call).1 ∧ Mirrors used (perform d call).2 (perform m call).2 := by
  by_cases hroom : call.HasRoom
  · exact h.step_of_hasRoom hfits hroom
  · cases call with
    | list ns => exact absurd trivial hroom
    | create c =>
        have hcalm : (!meetsFault (d.create c).1) = true := hcalm
        exact absurd (h.suits_of_create hfits.1 hfits.2 (by simpa using hcalm)).short hroom
    | delete ns name =>
        have hlong : maxName < (name ++ ".json").utf8ByteSize := Nat.lt_of_not_le hroom
        have hcalm : (!meetsFault (d.delete ns name).1) = true := hcalm
        change (d.delete ns name).1 = (m.delete ns name).1 ∧ Mirrors used (d.delete ns name).2 (m.delete ns name).2
        have hfree := h.get?_of_long hfits.1 (Nat.lt_of_lt_of_le hlong (size_place_le_draft name))
        rcases h.delete_of_long hfits.1 hfits.2 hlong with hdelete | hdelete
        · rw [hdelete, MemoryStore.delete_of_free h.up hfree]
          exact ⟨rfl, h.of_chunks ⟨h.up.1, h.up.2, h.up.3⟩ rfl⟩
        · rw [hdelete] at hcalm
          cases hcalm

/-- A call is no concern of the other namespaces. -/
theorem list_perform (h : Mirrors used d m) {call : StoreCall} (hfits : call.Fits used)
    (hcalm : (perform d call).1.isCalm = true) (hns : used ns) (hne : ns ≠ call.ns) :
    ∃ cs cs', d.list ns = .ok cs ∧ (perform d call).2.list ns = .ok cs' ∧ cs'.Perm cs := by
  obtain ⟨hlist, hperm⟩ := h.list_eq hns
  obtain ⟨hlist', hperm'⟩ := (h.step hfits hcalm).2.list_eq hns
  rw [MemoryStore.inNamespace_perform h.up hne] at hperm'
  exact ⟨_, _, hlist, hlist', hperm'.trans hperm.symm⟩

/-- A file where it is not in the way is not noticed. -/
theorem leave (h : Mirrors used d m) {l : Location}
    (hl : ∀ ns, used ns → l ≠ d.folder ns ∧ ∀ file, extension? file = some "json" → l ≠ d.folder ns ++ [file])
    (content : Bytes) : Mirrors used (d.leave l content) m := by
  unfold DirectoryStore.leave
  split
  · next files hwrite =>
    obtain ⟨hwell, hnode⟩ := h.wellFormed.of_write hwrite
    obtain ⟨o, hfind, ho, -⟩ := FileTree.unlessFolder_eq_ok.mp hwrite
    have hother : ∀ l', l' ≠ l → files.node? l' = d.files.node? l' := fun l' hne => (hnode l').trans (if_neg hne)
    have hroot : d.root ≠ l := by
      rintro rfl
      exact ho ((FileTree.find_eq_ok.mp hfind).2.2.symm.trans h.root)
    refine ⟨h.namespaces, hwell, (hother _ hroot).trans h.root, h.nameable, fun ns hns content' hfile => ?_,
      fun ns hns file hfolder => ?_, h.up, h.kept, fun ns hns name hname => ?_⟩
    · exact h.noFile ns hns content' ((hother _ (hl ns hns).1.symm).symm.trans hfile)
    · have hfolder : files.node? (d.folder ns ++ [file]) = some .folder := hfolder
      rw [hnode] at hfolder
      split at hfolder
      · cases hfolder
      · exact h.noFolder ns hns file hfolder
    · have hext := DirectoryStore.extension?_json hname
      exact (hother _ ((hl ns hns).2 _ hext).symm).trans (h.entries ns hns name hname)
  · exact h

end Mirrors

/-! ## Whole runs -/

namespace DirectoryStore

variable {used : String → Prop} {d : DirectoryStore} {m : MemoryStore} {es : List StoreEvent}

theorem root_create (s : DirectoryStore) (c : Chunk) : (s.create c).2.root = s.root := by
  unfold create createIn
  repeat' split
  all_goals rfl

theorem root_delete (s : DirectoryStore) (ns name : String) : (s.delete ns name).2.root = s.root := by
  unfold delete
  repeat' split
  all_goals rfl

theorem root_perform (s : DirectoryStore) (call : StoreCall) : (perform s call).2.root = s.root := by
  cases call with
  | list ns => rfl
  | create c => exact root_create s c
  | delete ns name => exact root_delete s ns name

theorem root_leave (s : DirectoryStore) (l : Location) (content : Bytes) : (s.leave l content).root = s.root := by
  unfold leave
  split <;> rfl

/-- The calls of a run in which none fails are answered alike, whatever files appear between them. -/
theorem mirrors_performAmid (h : Mirrors used d m) (hes : ∀ e ∈ es, e.Fits used d.root)
    (hcalm : ∀ reply ∈ (d.performAmid es).1, reply.isCalm = true) :
    List.Forall₂ StoreReply.Same (d.performAmid es).1 (performAll m (es.filterMap StoreEvent.call?)).1 ∧
      Mirrors used (d.performAmid es).2 (performAll m (es.filterMap StoreEvent.call?)).2 := by
  induction es generalizing d m with
  | nil => exact ⟨.nil, h⟩
  | cons e es ih =>
      obtain ⟨hfits, hrest⟩ := List.forall_mem_cons.mp hes
      cases e with
      | called call =>
          obtain ⟨hfirst, hlater⟩ := List.forall_mem_cons.mp hcalm
          obtain ⟨hsame, hmirrors⟩ := h.step hfits hfirst
          obtain ⟨hreplies, hend⟩ := ih hmirrors ((root_perform d call).symm ▸ hrest) hlater
          exact ⟨.cons hsame hreplies, hend⟩
      | strayed l content => exact ih (h.leave hfits content) ((root_leave d l content).symm ▸ hrest) hcalm

/-- No call fails in a run whose files can have their names. -/
theorem isCalm_performAmid (h : Mirrors used d m) (hes : ∀ e ∈ es, e.Fits used d.root)
    (hroom : ∀ e ∈ es, e.HasRoom) : ∀ reply ∈ (d.performAmid es).1, reply.isCalm = true := by
  induction es generalizing d m with
  | nil => simp [performAmid]
  | cons e es ih =>
      obtain ⟨hfits, hrest⟩ := List.forall_mem_cons.mp hes
      obtain ⟨hfirst, hlater⟩ := List.forall_mem_cons.mp hroom
      cases e with
      | called call =>
          have hcalm := h.isCalm_of_hasRoom hfits hfirst
          obtain ⟨-, hmirrors⟩ := h.step hfits hcalm
          exact List.forall_mem_cons.mpr ⟨hcalm, ih hmirrors ((root_perform d call).symm ▸ hrest) hlater⟩
      | strayed l content => exact ih (h.leave hfits content) ((root_leave d l content).symm ▸ hrest) hlater

/-- Where the root is empty, or not there yet, nothing is stored. -/
theorem mirrors_openAt {root : Location} {files : FileTree} (hused : ∀ ns, used ns → IsNamespace ns)
    (hfiles : files.WellFormed) (hempty : ∀ l, root <+: l → l ≠ root → files.node? l = none)
    (hopen : openAt root files = .ok d) : Mirrors used d .empty := by
  unfold openAt at hopen
  split at hopen
  · next made hmake =>
    cases hopen
    obtain ⟨hname, -, -⟩ := FileTree.makeFolders_eq_ok.mp hmake
    have hopens := FileTree.opens_of_makeFolders hfiles hmake
    have hnone : ∀ (name : String) (rest : Location), made.node? (root ++ name :: rest) = none := fun name rest => by
      have hne : root ++ name :: rest ≠ root := by simp
      have hback : ¬root ++ name :: rest <+: root := fun hfront => by
        have hlength := hfront.length_le
        rw [List.length_append, List.length_cons] at hlength
        omega
      rw [hopens.node?, if_neg hback]
      exact hempty _ (List.prefix_append _ _) hne
    have hchild : ∀ ns, used ns → ∀ file, (⟨root, made⟩ : DirectoryStore).child? ns file = none :=
      fun ns hns file => by
        rw [child?, folder_eq _ (hused ns hns), List.append_assoc]
        exact hnone ns [file]
    refine ⟨hused, hopens.wellFormed, hopens.folder root (List.prefix_refl _), hname, fun ns hns content hfile => ?_,
      fun ns hns file hfolder => ?_, ⟨rfl, rfl, rfl⟩, fun ns hns name c hc => ?_, fun ns hns name _ => ?_⟩
    · rw [folder_eq _ (hused ns hns)] at hfile
      cases (hnone ns []).symm.trans hfile
    · cases (hchild ns hns file).symm.trans hfolder
    · cases hc
    · exact hchild ns hns _
  · cases hopen

/-- A store in files that starts at an empty root answers every call as a new store in memory does, except for the
order of listings, as long as no call fails; and none fails for want of room for the names of files. Files that appear
are not noticed; a namespace shows its own chunks and is moved by its own calls; and a creation that is refused
leaves everything as it was. -/
theorem refines_memory {root : Location} {files : FileTree} (hused : ∀ ns, used ns → IsNamespace ns)
    (hfiles : files.WellFormed) (hempty : ∀ l, root <+: l → l ≠ root → files.node? l = none)
    (hopen : openAt root files = .ok d) (hes : ∀ e ∈ es, e.Fits used root) :
    let calls := es.filterMap StoreEvent.call?
    let replies := (d.performAmid es).1
    let d' := (d.performAmid es).2
    let m' := (performAll MemoryStore.empty calls).2
    ((∀ e ∈ es, e.HasRoom) → ∀ reply ∈ replies, reply.isCalm = true) ∧
    ((∀ reply ∈ replies, reply.isCalm = true) →
      List.Forall₂ StoreReply.Same replies (performAll MemoryStore.empty calls).1 ∧
      (∀ ns, used ns → ∃ cs, d'.list ns = .ok cs ∧ ∀ c ∈ cs, c.ns = ns) ∧
      (∀ call : StoreCall, call.Fits used → (perform d' call).1.isCalm = true → ∀ ns, used ns → ns ≠ call.ns →
        ∃ cs cs', d'.list ns = .ok cs ∧ (perform d' call).2.list ns = .ok cs' ∧ cs'.Perm cs) ∧
      ∀ c, (StoreCall.create c).Fits used → meetsFault (d'.create c).1 = false → (d'.create c).1 ≠ .ok () →
        (d'.create c).2 = d' ∧ (m'.create c).2.chunks = m'.chunks) := by
  intro calls replies d' m'
  have hstart := mirrors_openAt hused hfiles hempty hopen
  have hroot : d.root = root := by
    unfold openAt at hopen
    split at hopen <;> cases hopen
    rfl
  have hes : ∀ e ∈ es, e.Fits used d.root := hroot.symm ▸ hes
  refine ⟨isCalm_performAmid hstart hes, fun hcalm => ?_⟩
  obtain ⟨hreplies, hmirrors⟩ := mirrors_performAmid hstart hes hcalm
  refine ⟨hreplies, fun ns hns => ?_, fun call hfits hcalm ns hns hne => hmirrors.list_perform hfits hcalm hns hne,
    fun c hfits hcalm hfail => ?_⟩
  · obtain ⟨hlist, -⟩ := hmirrors.list_eq hns
    refine ⟨_, hlist, fun c hc => ?_⟩
    have hholds := (hmirrors.holds_iff hns).mp ((mem_found hmirrors.wellFormed (hmirrors.readable hns)).mp hc)
    exact (hmirrors.kept ns hns _ c hholds).1
  · obtain ⟨hsame, hkept, -⟩ := hmirrors.create hfits.1 (hmirrors.suits_of_create hfits.1 hfits.2 hcalm)
    refine ⟨hkept hfail, ?_⟩
    by_cases hfree : (m'.inNamespace c.ns).get? c.name = none
    · rw [MemoryStore.create_of_free hmirrors.up hfree] at hsame
      exact absurd hsame hfail
    · rw [MemoryStore.create_of_taken hmirrors.up hfree]

/-- Two namespaces; a chunk is created twice, with a draft and a note in its folder, and then deleted twice. -/
theorem refines_memory_strays :
    let used : String → Prop := fun ns => ns = "a" ∨ ns = "b"
    let d : DirectoryStore := ⟨["data"], ⟨[(["data"], .folder)]⟩⟩
    let c : Chunk := ⟨"a", "1-0", ∅, [7], 0⟩
    let es : List StoreEvent :=
      [.called (.create c), .strayed ["data", "a", "1-0.json.tmp"] [1], .strayed ["data", "a", "note"] [],
        .called (.create c), .called (.list "a"), .called (.list "b"), .called (.delete "b" "1-0"),
        .called (.delete "a" "1-0")]
    openAt ["data"] .empty = .ok d ∧
      (∀ ns, used ns → ∃ cs, (d.performAmid es).2.list ns = .ok cs ∧ ∀ c ∈ cs, c.ns = ns) ∧
      List.Forall₂ StoreReply.Same (d.performAmid es).1
        [.done (.ok ()), .done (.error (.alreadyExists "1-0")), .listed (.ok [c]), .listed (.ok []),
          .done (.error (.notFound "1-0")), .done (.ok ())] := by
  intro used d c es
  have hopen : openAt ["data"] .empty = .ok d := rfl
  have hused : ∀ ns, used ns → IsNamespace ns := by
    rintro ns (rfl | rfl) <;>
      exact ⟨⟨⟨⟨by decide, by decide⟩, by decide⟩, by decide⟩, by decide, by decide⟩
  have hname : IsStep "1-0" := ⟨⟨by decide, by decide⟩, by decide⟩
  have hstray : ∀ file, extension? file ≠ some "json" → ∀ ns, used ns →
      ["data", "a", file] ≠ Location.join ["data"] ns ∧
        ∀ file', extension? file' = some "json" → ["data", "a", file] ≠ Location.join ["data"] ns ++ [file'] := by
    intro file hfile ns hns
    have hjoin : Location.join ["data"] ns = ["data", ns] := folder_eq ⟨["data"], .empty⟩ (hused ns hns)
    rw [hjoin]
    refine ⟨by simp, fun file' hext heq => hfile ?_⟩
    obtain ⟨-, rfl⟩ : "a" = ns ∧ file = file' := by simpa using heq
    exact hext
  have hes : ∀ e ∈ es, e.Fits used ["data"] := by
    simp only [es, List.forall_mem_cons]
    exact ⟨⟨.inl rfl, hname⟩, hstray _ (by decide), hstray _ (by decide), ⟨.inl rfl, hname⟩, .inl rfl, .inr rfl,
      ⟨.inr rfl, hname⟩, ⟨.inl rfl, hname⟩, nofun⟩
  have hroom : ∀ e ∈ es, e.HasRoom := by
    have hdraft : ("1-0" ++ ".json.tmp").utf8ByteSize ≤ maxName := by decide
    have hplace : ("1-0" ++ ".json").utf8ByteSize ≤ maxName := by decide
    simp only [es, List.forall_mem_cons]
    exact ⟨hdraft, trivial, trivial, hdraft, trivial, trivial, hplace, hplace, nofun⟩
  have hempty : ∀ l, ["data"] <+: l → l ≠ ["data"] → FileTree.empty.node? l = none := by
    intro l hfront _
    rw [FileTree.node?, if_neg]
    · rfl
    · rintro rfl
      simp at hfront
  obtain ⟨hcalm, hall⟩ := refines_memory hused .empty hempty hopen hes
  obtain ⟨hreplies, hlists, -⟩ := hall (hcalm hroom)
  refine ⟨hopen, hlists, ?_⟩
  have hmemory : (performAll MemoryStore.empty (es.filterMap StoreEvent.call?)).1 =
      [.done (.ok ()), .done (.error (.alreadyExists "1-0")), .listed (.ok [c]), .listed (.ok []),
        .done (.error (.notFound "1-0")), .done (.ok ())] := by
    rfl
  rwa [hmemory] at hreplies

end DirectoryStore

end EdgeFleet
