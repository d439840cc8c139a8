import EdgeFleet.Proofs.Files.Tree
import EdgeFleet.Proofs.Fleet.Forms
import EdgeFleet.Proofs.Store.Lawful
import EdgeFleet.Store.Directory

/-! # Chunks in files

A folder that nobody else writes to holds each chunk in the file of its name. It may hold other files:
those that cannot be read as chunks are passed over.
-/

namespace EdgeFleet

/-! ## Calls for all items of a list -/

theorem mapM_cases {α β ε : Type} (f : α → Except ε β) (as : List α) :
    (∀ a ∈ as, ∃ b, f a = .ok b) ∧ as.mapM f = .ok (as.filterMap fun a => (f a).toOption) ∨
      ∃ a ∈ as, ∃ e, f a = .error e ∧ as.mapM f = .error e := by
  induction as with
  | nil => exact .inl ⟨fun a ha => (List.not_mem_nil ha).elim, rfl⟩
  | cons a as ih =>
      cases ha : f a with
      | error e =>
          exact .inr ⟨a, List.mem_cons_self, e, ha, by simp [List.mapM_cons, ha, bind, Except.bind]⟩
      | ok b =>
          rcases ih with ⟨hall, hok⟩ | ⟨a', ha', e, he, herror⟩
          · refine .inl ⟨List.forall_mem_cons.mpr ⟨⟨b, ha⟩, hall⟩, ?_⟩
            simp [List.mapM_cons, ha, hok, bind, Except.bind, pure, Except.pure, Except.toOption]
          · refine .inr ⟨a', List.mem_cons_of_mem _ ha', e, he, ?_⟩
            simp [List.mapM_cons, ha, herror, bind, Except.bind]

namespace DirectoryStore

variable {s : DirectoryStore} {ns : String}

/-! ## Files of chunks -/

/-- What is under a name in the folder of a namespace. -/
def child? (s : DirectoryStore) (ns file : String) : Option FileNode :=
  s.files.node? (s.folder ns ++ [file])

def Holds (ns : String) (s : DirectoryStore) (c : Chunk) : Prop :=
  ∃ file content, extension? file = some "json" ∧ s.child? ns file = some (.file content) ∧
    Chunk.decode? content = some c

/-- Every chunk of the namespace is in the file of its name. -/
structure Filed (ns : String) (s : DirectoryStore) : Prop where
  wellFormed : s.files.WellFormed
  place : ∀ file content c, extension? file = some "json" → s.child? ns file = some (.file content) →
    Chunk.decode? content = some c → s.place ns c.name = s.folder ns ++ [file]

/-- Nothing keeps the namespace from being listed. -/
structure Readable (ns : String) (s : DirectoryStore) : Prop where
  nameable : FileTree.isNameable (s.folder ns) = .ok ()
  isOpen : s.files.IsOpen (s.folder ns)
  files : ∀ file n, extension? file = some "json" → s.child? ns file = some n →
    (∃ content, n = .file content) ∧ FileTree.isNameable (s.folder ns ++ [file]) = .ok ()

theorem folder_of_child? (h : s.files.WellFormed) {file : String} {n : FileNode}
    (hentry : s.child? ns file = some n) : s.files.node? (s.folder ns) = some .folder := by
  have hparent := h.parent _ _ hentry
  rwa [List.dropLast_concat] at hparent

theorem chunkAt_eq_ok {l : Location} {o : Option Chunk} :
    s.chunkAt l = .ok o ↔ ∃ content, s.files.read l = .ok content ∧ Chunk.decode? content = o := by
  unfold chunkAt
  cases s.files.read l <;> simp [Except.map]

/-- The files of a folder in which there should be chunks. -/
def jsonFiles (s : DirectoryStore) (ns : String) : List String :=
  ((s.files.entries (s.folder ns)).mergeSort (fun a b => a ≤ b)).filter fun n => extension? n = some "json"

theorem mem_jsonFiles {file : String} : file ∈ s.jsonFiles ns ↔
    extension? file = some "json" ∧ ∃ n, s.child? ns file = some n := by
  simp [jsonFiles, FileTree.mem_entries, child?, and_comm]

theorem nodup_jsonFiles (h : s.files.WellFormed) : (s.jsonFiles ns).Nodup :=
  ((List.mergeSort_perm _ _).nodup_iff.mpr (h.nodup_entries _)).filter _

/-- The chunk in a file. -/
def inFile (s : DirectoryStore) (ns file : String) : Option Chunk :=
  (s.chunkAt (s.folder ns ++ [file])).toOption.join

theorem inFile_eq_some {file : String} {c : Chunk} : s.inFile ns file = some c ↔
    ∃ content, s.files.read (s.folder ns ++ [file]) = .ok content ∧ Chunk.decode? content = some c := by
  rw [← chunkAt_eq_ok, inFile]
  cases s.chunkAt (s.folder ns ++ [file]) <;> simp [Except.toOption]

/-! ## Listing -/

theorem read_entry (h : s.files.WellFormed) {file : String} {content : Bytes}
    (hentry : s.child? ns file = some (.file content))
    (hname : FileTree.isNameable (s.folder ns ++ [file]) = .ok ()) :
    s.files.read (s.folder ns ++ [file]) = .ok content :=
  FileTree.read_eq_ok.mpr (FileTree.find_eq_ok.mpr ⟨hname, h.checkFolder hentry, hentry⟩)

theorem list_of_chunks_error {e : FileError} (hchunks : s.chunks ns = .error e) (he : e ≠ .notFound) :
    s.list ns = .error (.io e) := by
  unfold list
  rw [hchunks]
  cases e <;> first | rfl | exact absurd rfl he

theorem chunks_of_folder (hname : FileTree.isNameable (s.folder ns) = .ok ())
    (hcheck : s.files.checkFolder (s.folder ns) = .ok ()) :
    s.chunks ns = ((s.jsonFiles ns).mapM fun file => s.chunkAt (s.folder ns ++ [file])).map
      (·.filterMap id) := by
  have hnames := FileTree.names_eq_ok.mpr ⟨hname, hcheck, rfl⟩
  unfold chunks
  rw [hnames]
  cases h : (s.jsonFiles ns).mapM fun file => s.chunkAt (s.folder ns ++ [file]) <;>
    simp_all [jsonFiles, bind, Except.bind, pure, Except.pure, Except.map]

/-- What is listed when every file can be read. -/
def found (s : DirectoryStore) (ns : String) : List Chunk := (s.jsonFiles ns).filterMap (s.inFile ns)

theorem mem_found (h : s.files.WellFormed) (hreadable : Readable ns s) {c : Chunk} :
    c ∈ s.found ns ↔ Holds ns s c := by
  simp only [found, List.mem_filterMap, inFile_eq_some]
  constructor
  · rintro ⟨file, hfile, content, hread, hdecode⟩
    have hentry := (FileTree.find_eq_ok.mp (FileTree.read_eq_ok.mp hread)).2.2
    exact ⟨file, content, (mem_jsonFiles.mp hfile).1, hentry, hdecode⟩
  · rintro ⟨file, content, hext, hentry, hdecode⟩
    have hnameable := (hreadable.files file _ hext hentry).2
    exact ⟨file, mem_jsonFiles.mpr ⟨hext, _, hentry⟩, content, read_entry h hentry hnameable, hdecode⟩

theorem nodup_found (h : Filed ns s) : ((s.found ns).map (·.name)).Nodup := by
  have hnames : (s.found ns).map (·.name) =
      (s.jsonFiles ns).filterMap fun file => (s.inFile ns file).map (·.name) := by
    rw [found, List.map_filterMap]
  have hplace : ∀ file name, file ∈ s.jsonFiles ns → (s.inFile ns file).map (·.name) = some name →
      s.place ns name = s.folder ns ++ [file] := by
    intro file name hfile hname
    obtain ⟨c, hc, rfl⟩ := Option.map_eq_some_iff.mp hname
    obtain ⟨content, hread, hdecode⟩ := inFile_eq_some.mp hc
    have hentry := (FileTree.find_eq_ok.mp (FileTree.read_eq_ok.mp hread)).2.2
    exact h.place file content c (mem_jsonFiles.mp hfile).1 hentry hdecode
  rw [hnames]
  refine List.pairwise_filterMap.mpr ((nodup_jsonFiles h.wellFormed).imp_of_mem ?_)
  intro file file' hfile hfile' hne name hname name' hname' heq
  subst heq
  have hsame := (hplace file name hfile hname).symm.trans (hplace file' name hfile' hname')
  exact hne (by simpa using hsame)

/-- The namespace is listed when nothing keeps it from being listed. -/
theorem list_spec (h : s.files.WellFormed) :
    Readable ns s ∧ s.list ns = .ok (s.found ns) ∨ ¬Readable ns s ∧ ∃ e, s.list ns = .error e := by
  cases hname : FileTree.isNameable (s.folder ns) with
  | error e =>
      have hchunks : s.chunks ns = .error e := by simp [chunks, FileTree.names, hname, bind, Except.bind]
      refine .inr ⟨fun hreadable => ?_, .io e, list_of_chunks_error hchunks fun he => ?_⟩
      · rw [hreadable.nameable] at hname
        cases hname
      · exact FileTree.isNameable_ne_notFound _ (he ▸ hname)
  | ok _ =>
      rcases FileTree.checkFolder_cases s.files (s.folder ns) with
        ⟨hclosed, hcheck⟩ | ⟨hopen, -, hcheck⟩ | ⟨hopen, hmissing, hcheck⟩
      · have hchunks : s.chunks ns = .error .notADirectory := by
          simp [chunks, FileTree.names, hname, hcheck, bind, Except.bind]
        exact .inr ⟨fun hreadable => hclosed hreadable.isOpen, _, list_of_chunks_error hchunks (by simp)⟩
      · have hchunks := chunks_of_folder hname hcheck
        rcases mapM_cases (fun file => s.chunkAt (s.folder ns ++ [file])) (s.jsonFiles ns) with
          ⟨hall, hok⟩ | ⟨file, hfile, e, he, herror⟩
        · have hreadable : Readable ns s := by
            refine ⟨hname, hopen, fun file n hext hentry => ?_⟩
            obtain ⟨o, ho⟩ := hall file (mem_jsonFiles.mpr ⟨hext, n, hentry⟩)
            obtain ⟨content, hread, -⟩ := chunkAt_eq_ok.mp ho
            obtain ⟨hnameable, -, hnode⟩ := FileTree.find_eq_ok.mp (FileTree.read_eq_ok.mp hread)
            exact ⟨⟨content, Option.some.inj (hentry.symm.trans hnode)⟩, hnameable⟩
          have hlist : s.list ns = .ok (s.found ns) := by
            unfold list
            rw [hchunks, hok]
            simp only [Except.map, found, List.filterMap_filterMap]
            congr 1
          exact .inl ⟨hreadable, hlist⟩
        · obtain ⟨hext, n, hentry⟩ := mem_jsonFiles.mp hfile
          rw [herror] at hchunks
          refine .inr ⟨fun hreadable => ?_, .io e, list_of_chunks_error hchunks fun hnotFound => ?_⟩
          · obtain ⟨⟨content, rfl⟩, hnameable⟩ := hreadable.files file n hext hentry
            rw [chunkAt, read_entry h hentry hnameable] at he
            cases he
          · subst hnotFound
            have hread : s.files.read (s.folder ns ++ [file]) = .error .notFound := by
              unfold chunkAt at he
              cases hread : s.files.read (s.folder ns ++ [file]) <;> simp_all [Except.map]
            have hnode := h.of_isMissing (FileTree.read_eq_notFound.mp hread)
            rw [child?, hnode] at hentry
            cases hentry
      · have hchunks : s.chunks ns = .error .notFound := by
          simp [chunks, FileTree.names, hname, hcheck, bind, Except.bind]
        have hnone : ∀ file n, s.child? ns file ≠ some n := fun file n hentry =>
          hmissing (folder_of_child? h hentry)
        have hfiles : s.jsonFiles ns = [] := List.eq_nil_iff_forall_not_mem.mpr fun file hfile => by
          obtain ⟨-, n, hentry⟩ := mem_jsonFiles.mp hfile
          exact hnone file n hentry
        have hlist : s.list ns = .ok (s.found ns) := by
          rw [list, hchunks, found, hfiles]
          rfl
        exact .inl ⟨⟨hname, hopen, fun file n _ hentry => absurd hentry (hnone file n)⟩, hlist⟩

theorem list_cases (h : Filed ns s) :
    Readable ns s ∧ (∃ cs, s.list ns = .ok cs ∧ (∀ c, c ∈ cs ↔ Holds ns s c) ∧ (cs.map (·.name)).Nodup) ∨
      ¬Readable ns s ∧ ∃ e, s.list ns = .error e := by
  rcases list_spec h.wellFormed with ⟨hreadable, hlist⟩ | hfail
  · exact .inl ⟨hreadable, _, hlist, fun c => mem_found h.wellFormed hreadable, nodup_found h⟩
  · exact .inr hfail

/-! ## Creating -/

/-- The name of the file of a chunk. -/
def fileOf (c : Chunk) : String := c.name ++ ".json"

section

variable {c : Chunk}

/-- The name is one step of a path. -/
def IsFileName (name : String) : Prop := name.toList ≠ [] ∧ '/' ∉ name.toList

theorem name_of_isNumbered (h : c.IsNumbered) : IsFileName c.name := by
  obtain ⟨g, i, hname⟩ := h
  have hchars : c.name.toList = Decimal.digits g ++ '-' :: Decimal.digits i := by
    simp [hname, Chunk.nameOf, Decimal.render]
  have hnot : ∀ n, '/' ∉ Decimal.digits n := fun n hmem =>
    absurd (Decimal.isDigit_of_mem_digits hmem) (by decide)
  rw [IsFileName, hchars]
  refine ⟨by simp, fun hmem => ?_⟩
  rcases List.mem_append.mp hmem with hmem | hmem
  · exact hnot g hmem
  · rcases List.mem_cons.mp hmem with heq | hmem
    · exact absurd heq (by decide)
    · exact hnot i hmem

theorem extension?_json {name : String} (h : name.toList ≠ []) : extension? (name ++ ".json") = some "json" :=
  extension?_eq name.toList ['j', 's', 'o', 'n'] (by simp) h (by decide)

theorem extension?_tmp (name : String) : extension? (name ++ ".json.tmp") = some "tmp" :=
  extension?_eq (name.toList ++ ['.', 'j', 's', 'o', 'n']) ['t', 'm', 'p'] (by simp) (by simp) (by decide)

theorem extension?_fileOf (h : IsFileName c.name) : extension? (fileOf c) = some "json" := extension?_json h.1

theorem fileOf_tmp (c : Chunk) : fileOf c ++ ".tmp" = c.name ++ ".json.tmp" := by
  rw [fileOf, String.append_assoc]
  rfl

theorem extension?_draft (c : Chunk) : extension? (fileOf c ++ ".tmp") = some "tmp" := by
  rw [fileOf_tmp]
  exact extension?_tmp c.name

theorem place_of_isFileName (s : DirectoryStore) (ns : String) {name : String} (h : IsFileName name) :
    s.place ns name = s.folder ns ++ [name ++ ".json"] :=
  Location.join_name _ (by simp [h.2]) (by simp)

theorem place_eq (s : DirectoryStore) (h : IsFileName c.name) :
    s.place c.ns c.name = s.folder c.ns ++ [fileOf c] :=
  place_of_isFileName s c.ns h

theorem draft_eq (s : DirectoryStore) (h : IsFileName c.name) :
    s.draft c.ns c.name = s.folder c.ns ++ [fileOf c ++ ".tmp"] := by
  rw [draft, ← fileOf_tmp]
  exact Location.join_name _ (by simp [fileOf, h.2]) (by simp [fileOf])

/-- The way to the folder of a namespace is made. -/
def HasFolder (ns : String) (s : DirectoryStore) : Prop :=
  ∀ front, front <+: s.folder ns → s.files.node? front = some .folder

theorem HasFolder.isOpen (h : HasFolder ns s) : s.files.IsOpen (s.folder ns) := by
  intro front content hfront hfile
  rw [h front hfront] at hfile
  cases hfile

/-- A file in a folder is not on the way to it. -/
theorem front_ne_file {front l : Location} {file : String} (h : front <+: l) : front ≠ l ++ [file] := by
  rintro rfl
  have hlength := h.length_le
  rw [List.length_append, List.length_singleton] at hlength
  omega

/-- What the call for a chunk does to the namespace. -/
structure Created (c : Chunk) (s : DirectoryStore) (r : Except StoreError Unit × DirectoryStore) : Prop where
  root : r.2.root = s.root
  wellFormed : r.2.files.WellFormed
  entries : r.1 ≠ .ok () ∧
      (∀ file, extension? file = some "json" → r.2.child? c.ns file = s.child? c.ns file) ∨
    r.1 = .ok () ∧ FileTree.isNameable (s.folder c.ns ++ [fileOf c]) = .ok () ∧
      s.child? c.ns (fileOf c) = none ∧
      ∀ file, extension? file = some "json" → r.2.child? c.ns file =
        if file = fileOf c then some (.file c.encode) else s.child? c.ns file

/-- A draft is no chunk of the namespace. -/
theorem ne_draft {l : Location} {file : String} (hext : extension? file = some "json") :
    l ++ [file] ≠ l ++ [fileOf c ++ ".tmp"] := by
  intro heq
  have hfile : file = fileOf c ++ ".tmp" := by simpa using heq
  rw [hfile, extension?_draft] at hext
  exact absurd hext (by decide)

theorem createIn_spec (h : s.files.WellFormed) (hfolder : HasFolder c.ns s) (hc : IsFileName c.name) :
    Created c s (s.createIn c) ∧ HasFolder c.ns (s.createIn c).2 := by
  have hsame : ∀ e, Created c s (.error e, s) := fun e => ⟨rfl, h, .inl ⟨by simp, fun _ _ => rfl⟩⟩
  unfold createIn
  rw [place_eq s hc, draft_eq s hc]
  split
  · exact ⟨hsame _, hfolder⟩
  · exact ⟨hsame _, hfolder⟩
  · next hexist =>
    have hnone := h.of_isMissing (FileTree.exist_eq_false.mp hexist)
    split
    · exact ⟨hsame _, hfolder⟩
    · next files hwrite =>
      obtain ⟨hwritten, hdraft⟩ := h.of_write hwrite
      split
      · refine ⟨⟨rfl, hwritten, .inl ⟨by simp, fun file hext => ?_⟩⟩, fun front hfront => ?_⟩
        · exact (hdraft _).trans (if_neg (ne_draft hext))
        · exact (hdraft _).trans ((if_neg (front_ne_file hfront)).trans (hfolder front hfront))
      · next files' hrename =>
        obtain ⟨_, _, -, hfind, -⟩ := FileTree.rename_eq_ok.mp hrename
        have hname := (FileTree.find_eq_ok.mp hfind).1
        obtain ⟨hrenamed, content, hcontent, hnode⟩ := hwritten.of_rename hrename
        rw [hdraft, if_pos rfl] at hcontent
        cases hcontent
        have hentry : ∀ file, extension? file = some "json" → files'.node? (s.folder c.ns ++ [file]) =
            if file = fileOf c then some (.file c.encode) else s.child? c.ns file := fun file hext => by
          rw [hnode, if_neg (ne_draft hext), hdraft, if_neg (ne_draft hext)]
          simp [child?]
        refine ⟨⟨rfl, hrenamed, .inr ⟨rfl, hname, hnone, hentry⟩⟩, fun front hfront => ?_⟩
        have hne : ∀ file, front ≠ s.folder c.ns ++ [file] := fun file => front_ne_file hfront
        refine (hnode front).trans ?_
        rw [if_neg (hne _), if_neg (hne _), hdraft, if_neg (hne _)]
        exact hfolder front hfront

theorem create_spec (h : s.files.WellFormed) (hc : IsFileName c.name) : Created c s (s.create c) ∧
    (s.files.IsOpen (s.folder c.ns) → (s.create c).2.files.IsOpen (s.folder c.ns)) := by
  unfold create
  split
  · exact ⟨⟨rfl, h, .inl ⟨by simp, fun _ _ => rfl⟩⟩, fun hopen => hopen⟩
  · next files hmake =>
    have hopens := FileTree.opens_of_makeFolders h hmake
    have hentry : ∀ file, files.node? (s.folder c.ns ++ [file]) = s.child? c.ns file := fun file =>
      (hopens.same _).resolve_right fun hfront => front_ne_file hfront.1 rfl
    have hopened : HasFolder c.ns { s with files } := hopens.folder
    obtain ⟨hcreated, hfolder⟩ := createIn_spec hopens.wellFormed hopened hc
    refine ⟨⟨hcreated.root, hcreated.wellFormed, ?_⟩, fun _ => ?_⟩
    · rcases hcreated.entries with ⟨hfail, hsame⟩ | ⟨hok, hname, hnone, hnew⟩
      · exact .inl ⟨hfail, fun file hext => (hsame file hext).trans (hentry file)⟩
      · refine .inr ⟨hok, hname, (hentry _).symm.trans hnone, fun file hext => ?_⟩
        rw [hnew file hext]
        exact if_congr Iff.rfl rfl (hentry file)
    · have hroot := hcreated.root
      have hopen := hfolder.isOpen
      rwa [folder, hroot] at hopen

end

/-! ## Deleting -/

/-- What the call for a name does to the namespace: it takes away the file of that name, or nothing. -/
structure Deleted (ns name : String) (s : DirectoryStore) (r : Except StoreError Unit × DirectoryStore) :
    Prop where
  root : r.2.root = s.root
  wellFormed : r.2.files.WellFormed
  isOpen : s.files.IsOpen (s.folder ns) → r.2.files.IsOpen (s.folder ns)
  entries : ∀ file n, r.2.child? ns file = some n → s.child? ns file = some n
  gone : r.1 = .ok () ∨ (∃ missing, r.1 = .error (.notFound missing)) →
    r.2.files.node? (s.place ns name) = none

theorem delete_spec (h : s.files.WellFormed) (ns name : String) : Deleted ns name s (s.delete ns name) := by
  unfold delete
  split
  · next files hremove =>
    obtain ⟨hremoved, -, hnode⟩ := h.of_remove hremove
    have hold : ∀ l n, files.node? l = some n → s.files.node? l = some n := by
      intro l n hl
      rw [hnode] at hl
      split at hl
      · cases hl
      · exact hl
    exact ⟨rfl, hremoved, fun hopen front content hfront hfile =>
      hopen front content hfront (hold _ _ hfile), fun file n => hold _ _, fun _ => by simp [hnode]⟩
  · next hremove =>
    have hnone := h.of_isMissing (FileTree.remove_eq_notFound.mp hremove)
    exact ⟨rfl, h, fun hopen => hopen, fun _ _ hentry => hentry, fun _ => hnone⟩
  · exact ⟨rfl, h, fun hopen => hopen, fun _ _ hentry => hentry, by simp⟩

/-! ## The laws -/

theorem readable_iff (h : Filed ns s) : (∃ cs, s.list ns = .ok cs) ↔ Readable ns s := by
  rcases list_cases h with ⟨hreadable, cs, hlist, -⟩ | ⟨hnot, e, hlist⟩
  · simp [hreadable, hlist]
  · simp [hnot, hlist]

theorem Created.filed {c : Chunk} {r : Except StoreError Unit × DirectoryStore} (hr : Created c s r)
    (h : Filed c.ns s) (hc : IsFileName c.name) : Filed c.ns r.2 := by
  refine ⟨hr.wellFormed, fun file content c' hext hentry hdecode => ?_⟩
  rw [place, folder, hr.root]
  rcases hr.entries with ⟨-, hsame⟩ | ⟨-, -, -, hnew⟩
  · exact h.place file content c' hext ((hsame file hext).symm.trans hentry) hdecode
  · rw [hnew file hext] at hentry
    split at hentry
    · next hfile =>
      cases hentry
      rw [Chunk.decode?_encode] at hdecode
      cases hdecode
      rw [hfile]
      exact place_eq s hc
    · exact h.place file content c' hext hentry hdecode

theorem Created.holds_iff {c : Chunk} {r : Except StoreError Unit × DirectoryStore} (hr : Created c s r)
    (hc : IsFileName c.name) {c' : Chunk} : Holds c.ns r.2 c' ↔ Holds c.ns s c' ∨ c' = c ∧ r.1 = .ok () := by
  rcases hr.entries with ⟨hfail, hsame⟩ | ⟨hok, -, hnone, hnew⟩
  · have hiff : Holds c.ns r.2 c' ↔ Holds c.ns s c' := by
      refine exists_congr fun file => exists_congr fun content => and_congr_right fun hext => ?_
      rw [hsame file hext]
    rw [hiff]
    simp [hfail]
  · constructor
    · rintro ⟨file, content, hext, hentry, hdecode⟩
      rw [hnew file hext] at hentry
      split at hentry
      · cases hentry
        rw [Chunk.decode?_encode] at hdecode
        exact .inr ⟨(Option.some.inj hdecode).symm, hok⟩
      · exact .inl ⟨file, content, hext, hentry, hdecode⟩
    · rintro (⟨file, content, hext, hentry, hdecode⟩ | ⟨rfl, -⟩)
      · refine ⟨file, content, hext, ?_, hdecode⟩
        rw [hnew file hext, if_neg]
        · exact hentry
        · rintro rfl
          rw [hnone] at hentry
          cases hentry
      · refine ⟨fileOf c', c'.encode, extension?_fileOf hc, ?_, Chunk.decode?_encode c'⟩
        rw [hnew _ (extension?_fileOf hc), if_pos rfl]

theorem Created.readable {c : Chunk} {r : Except StoreError Unit × DirectoryStore} (hr : Created c s r)
    (hopen : s.files.IsOpen (s.folder c.ns) → r.2.files.IsOpen (s.folder c.ns))
    (h : Readable c.ns s) : Readable c.ns r.2 := by
  refine ⟨?_, ?_, fun file n hext hentry => ?_⟩ <;> simp only [folder, hr.root]
  · exact h.nameable
  · exact hopen h.isOpen
  · rcases hr.entries with ⟨-, hsame⟩ | ⟨-, hname, -, hnew⟩
    · exact h.files file n hext ((hsame file hext).symm.trans hentry)
    · rw [hnew file hext] at hentry
      split at hentry
      · next hfile =>
        cases hentry
        exact ⟨⟨_, rfl⟩, hfile ▸ hname⟩
      · exact h.files file n hext hentry

section

variable {name : String} {r : Except StoreError Unit × DirectoryStore}

theorem Deleted.filed (hr : Deleted ns name s r) (h : Filed ns s) : Filed ns r.2 := by
  refine ⟨hr.wellFormed, fun file content c hext hentry hdecode => ?_⟩
  rw [place, folder, hr.root]
  exact h.place file content c hext (hr.entries file _ hentry) hdecode

theorem Deleted.holds (hr : Deleted ns name s r) {c : Chunk} : Holds ns r.2 c → Holds ns s c := by
  rintro ⟨file, content, hext, hentry, hdecode⟩
  exact ⟨file, content, hext, hr.entries file _ hentry, hdecode⟩

theorem Deleted.name_ne (hr : Deleted ns name s r) (h : Filed ns s)
    (hok : r.1 = .ok () ∨ ∃ missing, r.1 = .error (.notFound missing)) {c : Chunk} :
    Holds ns r.2 c → c.name ≠ name := by
  rintro ⟨file, content, hext, hentry, hdecode⟩ rfl
  have hplace := h.place file content c hext (hr.entries file _ hentry) hdecode
  have hgone := hr.gone hok
  rw [hplace, folder, ← hr.root] at hgone
  cases hentry.symm.trans hgone

theorem Deleted.readable (hr : Deleted ns name s r) (h : Readable ns s) : Readable ns r.2 := by
  refine ⟨?_, ?_, fun file n hext hentry => ?_⟩ <;> simp only [folder, hr.root]
  · exact h.nameable
  · exact hr.isOpen h.isOpen
  · exact h.files file n hext (hr.entries file n hentry)

end

instance : LawfulStore DirectoryStore where
  Valid := Filed
  Holds := Holds
  mem_list {ns s cs} hs h c := by
    rcases list_cases hs with ⟨-, cs', hlist, hmem, -⟩ | ⟨-, e, hlist⟩
    · rw [← Except.ok.inj (hlist.symm.trans h)]
      exact hmem c
    · cases hlist.symm.trans h
  nodup_list {ns s cs} hs h := by
    rcases list_cases hs with ⟨-, cs', hlist, -, hnodup⟩ | ⟨-, e, hlist⟩
    · rw [← Except.ok.inj (hlist.symm.trans h)]
      exact hnodup
    · cases hlist.symm.trans h
  valid_create {ns s c} hs hns hc := by
    subst hns
    have hname := name_of_isNumbered hc
    exact (create_spec hs.wellFormed hname).1.filed hs hname
  holds_create {ns s c} hs hns hc c' := by
    subst hns
    have hname := name_of_isNumbered hc
    exact (create_spec hs.wellFormed hname).1.holds_iff hname
  valid_delete {ns s} hs name := (delete_spec hs.wellFormed ns name).filed hs
  holds_of_delete {ns s} hs name c := (delete_spec hs.wellFormed ns name).holds
  ne_of_delete {ns s} hs name c hok := (delete_spec hs.wellFormed ns name).name_ne hs hok
  list_create {ns s c} hs hns hc h := by
    subst hns
    have hname := name_of_isNumbered hc
    obtain ⟨hcreated, hopen⟩ := create_spec hs.wellFormed hname
    exact (readable_iff (hcreated.filed hs hname)).mpr (hcreated.readable hopen ((readable_iff hs).mp h))
  list_delete {ns s} hs name h := by
    have hdeleted := delete_spec hs.wellFormed ns name
    exact (readable_iff (hdeleted.filed hs)).mpr (hdeleted.readable ((readable_iff hs).mp h))

end DirectoryStore

end EdgeFleet
