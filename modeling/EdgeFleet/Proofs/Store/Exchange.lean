import EdgeFleet.Proofs.Store.Places

/-! # Calls to stores

What the two stores answer to single calls when nothing stands in the way: no failure has been asked for, and
files can have the names.
-/

namespace EdgeFleet

/-! ## Calls -/

inductive StoreCall where
  | list (ns : String)
  | create (c : Chunk)
  | delete (ns name : String)

def StoreCall.ns : StoreCall → String
  | list ns => ns
  | create c => c.ns
  | delete ns _ => ns

inductive StoreReply where
  | listed (r : Except StoreError (List Chunk))
  | done (r : Except StoreError Unit)

namespace StoreReply

/-- The same but for the order of a listing. -/
def Same : StoreReply → StoreReply → Prop
  | listed (.ok cs), listed (.ok cs') => cs.Perm cs'
  | listed (.error e), listed (.error e') => e = e'
  | done r, done r' => r = r'
  | _, _ => False

/-- The store itself has not failed. -/
def isCalm : StoreReply → Bool
  | listed (.ok _) => true
  | listed (.error e) => !e.isFault
  | done r => !meetsFault r

theorem Same.isCalm_eq {r r' : StoreReply} (h : r.Same r') : r.isCalm = r'.isCalm := by
  match r, r', h with
  | .listed (.ok _), .listed (.ok _), _ => rfl
  | .listed (.error _), .listed (.error _), h => rw [show _ = _ from h]
  | .done _, .done _, h => rw [show _ = _ from h]

end StoreReply

section

variable {σ : Type} [ChunkStore σ]

def perform (s : σ) : StoreCall → StoreReply × σ
  | .list ns => (.listed (ChunkStore.list s ns), s)
  | .create c => (.done (ChunkStore.create s c).1, (ChunkStore.create s c).2)
  | .delete ns name => (.done (ChunkStore.delete s ns name).1, (ChunkStore.delete s ns name).2)

/-- Performs calls one after the other; yields the replies. -/
def performAll (s : σ) : List StoreCall → List StoreReply × σ
  | [] => ([], s)
  | call :: calls =>
    let (reply, s) := perform s call
    let (replies, s) := performAll s calls
    (reply :: replies, s)

end

/-- Two lawful stores that hold the same chunks list the same. -/
theorem list_perm_of_holds {σ τ : Type} [ChunkStore σ] [ChunkStore τ] [LawfulStore σ] [LawfulStore τ]
    {ns : String} {s : σ} {t : τ} (hs : LawfulStore.Valid ns s) (ht : LawfulStore.Valid ns t)
    (hsame : ∀ c, LawfulStore.Holds ns s c ↔ LawfulStore.Holds ns t c) {cs cs' : List Chunk}
    (hlist : ChunkStore.list s ns = .ok cs) (hlist' : ChunkStore.list t ns = .ok cs') : cs.Perm cs' := by
  have hnodup : cs.Nodup := (LawfulStore.nodup_list hs hlist).of_map _
  have hnodup' : cs'.Nodup := (LawfulStore.nodup_list ht hlist').of_map _
  refine (List.perm_ext_iff_of_nodup hnodup hnodup').mpr fun c => ?_
  rw [LawfulStore.mem_list hs hlist, LawfulStore.mem_list ht hlist', hsame]

/-! ## Names -/

/-- The name is one step of a path, and can be asked for. -/
structure IsStep (name : String) : Prop where
  step : DirectoryStore.IsFileName name
  noNul : '\x00' ∉ name.toList

/-- With the ending after it, the name is one that a file can have. -/
structure Suits (ending name : String) : Prop extends IsStep name where
  short : (name ++ ending).utf8ByteSize ≤ maxName

/-- The name is one that a folder below the root can have. -/
structure IsNamespace (ns : String) : Prop where
  suits : Suits "" ns
  ne_here : ns ≠ "."
  ne_up : ns ≠ ".."

theorem size_place_le_draft (name : String) :
    (name ++ ".json").utf8ByteSize ≤ (name ++ ".json.tmp").utf8ByteSize := by
  have hless : ".json".utf8ByteSize ≤ ".json.tmp".utf8ByteSize := by decide
  rw [String.utf8ByteSize_append, String.utf8ByteSize_append]
  omega

/-- Where the draft of a chunk fits, its file does. -/
theorem Suits.of_draft {name : String} (h : Suits ".json.tmp" name) : Suits ".json" name :=
  ⟨h.toIsStep, (size_place_le_draft name).trans h.short⟩

namespace StoreCall

/-- The namespace of the call is in use, and the name is one step of a path. -/
def Fits (used : String → Prop) : StoreCall → Prop
  | list ns => used ns
  | create c => used c.ns ∧ IsStep c.name
  | delete ns name => used ns ∧ IsStep name

/-- The files of the call can have their names: the longest is that of a draft. -/
def HasRoom : StoreCall → Prop
  | list _ => True
  | create c => (c.name ++ ".json.tmp").utf8ByteSize ≤ maxName
  | delete _ name => (name ++ ".json").utf8ByteSize ≤ maxName

end StoreCall

/-! ## Chunks in files -/

namespace DirectoryStore

variable {s : DirectoryStore} {ns name : String} {c : Chunk}

theorem folder_eq (s : DirectoryStore) (h : IsNamespace ns) : s.folder ns = s.root ++ [ns] := by
  have hlist : ∀ {t : String}, ns ≠ t → ns.toList ≠ t.toList := fun hne heq => hne (String.toList_inj.mp heq)
  exact Location.join_of_name _ h.suits.step.2 (not_or.mpr ⟨h.suits.step.1, hlist h.ne_here⟩) (hlist h.ne_up)

theorem create_of_taken (h : s.files.WellFormed) (hname : IsFileName c.name)
    (hplace : FileTree.isNameable (s.folder c.ns ++ [fileOf c]) = .ok ()) {n : FileNode}
    (htaken : s.child? c.ns (fileOf c) = some n) : s.create c = (.error (.alreadyExists c.name), s) := by
  have hfolder := folder_of_child? h htaken
  have hmake := FileTree.makeFolders_of_folder h (FileTree.isNameable_concat.mp hplace).1 hfolder
  have hfind := h.find_in_folder hfolder hplace
  rw [show s.files.node? (s.folder c.ns ++ [fileOf c]) = some n from htaken] at hfind
  have hexist : s.files.exist (s.place c.ns c.name) = .ok true := by
    rw [place_eq s hname, FileTree.exist, hfind]
    rfl
  simp only [create, hmake, createIn, hexist]

theorem create_of_free (h : s.files.WellFormed) (hname : IsFileName c.name)
    (hplace : FileTree.isNameable (s.folder c.ns ++ [fileOf c]) = .ok ())
    (hdraft : FileTree.isNameable (s.folder c.ns ++ [fileOf c ++ ".tmp"]) = .ok ())
    (hopen : s.files.IsOpen (s.folder c.ns)) (hfree : s.child? c.ns (fileOf c) = none)
    (hnofolder : s.child? c.ns (fileOf c ++ ".tmp") ≠ some .folder) :
    ∃ files, s.create c = (.ok (), { s with files }) ∧ files.WellFormed ∧ ∀ l, files.node? l =
      if l = s.folder c.ns ++ [fileOf c] then some (.file c.encode)
      else if l = s.folder c.ns ++ [fileOf c ++ ".tmp"] then none
      else if l <+: s.folder c.ns then some .folder else s.files.node? l := by
  obtain ⟨made, hmake, hopens⟩ := FileTree.exists_makeFolders h (FileTree.isNameable_concat.mp hplace).1 hopen
  have hchild : ∀ file, made.node? (s.folder c.ns ++ [file]) = s.child? c.ns file := fun file =>
    (hopens.node? _).trans (if_neg fun hfront => front_ne_file hfront rfl)
  have hfolder := hopens.folder _ (List.prefix_refl _)
  have hexist : made.exist (s.folder c.ns ++ [fileOf c]) = .ok false := by
    refine FileTree.exist_eq_false.mpr (.inl ?_)
    rw [hopens.wellFormed.find_in_folder hfolder hplace, hchild, hfree]
  -- The draft may lie there already: it is written anew.
  have hwrite : made.write (s.folder c.ns ++ [fileOf c ++ ".tmp"]) c.encode = .ok _ :=
    FileTree.unlessFolder_eq_ok.mpr
      ⟨_, hopens.wellFormed.find_in_folder hfolder hdraft, hchild _ ▸ hnofolder, rfl⟩
  obtain ⟨hwritten, hnode⟩ := hopens.wellFormed.of_write hwrite
  generalize made.put (s.folder c.ns ++ [fileOf c ++ ".tmp"]) (.file c.encode) = written at hwrite hwritten hnode
  have hfolder' : written.node? (s.folder c.ns) = some .folder := by
    rw [hnode, if_neg (front_ne_file (List.prefix_refl _))]
    exact hfolder
  have hread : written.read (s.folder c.ns ++ [fileOf c ++ ".tmp"]) = .ok c.encode := by
    refine FileTree.read_eq_ok.mpr ?_
    rw [hwritten.find_in_folder hfolder' hdraft, hnode, if_pos rfl]
  have hne : s.folder c.ns ++ [fileOf c] ≠ s.folder c.ns ++ [fileOf c ++ ".tmp"] := ne_draft (extension?_fileOf hname)
  have hfind : written.find (s.folder c.ns ++ [fileOf c]) = .ok none := by
    rw [hwritten.find_in_folder hfolder' hplace, hnode, if_neg hne, hchild, hfree]
  have hrename : written.rename (s.folder c.ns ++ [fileOf c ++ ".tmp"]) (s.folder c.ns ++ [fileOf c]) = .ok _ :=
    FileTree.rename_eq_ok.mpr ⟨_, _, hread, hfind, by simp, rfl⟩
  obtain ⟨hrenamed, content, hcontent, hlast⟩ := hwritten.of_rename hrename
  rw [hnode, if_pos rfl] at hcontent
  cases hcontent
  refine ⟨_, ?_, hrenamed, fun l => ?_⟩
  · have hplace' : ({ s with files := made } : DirectoryStore).place c.ns c.name = s.folder c.ns ++ [fileOf c] :=
      place_eq _ hname
    have hdraft' : ({ s with files := made } : DirectoryStore).draft c.ns c.name =
        s.folder c.ns ++ [fileOf c ++ ".tmp"] := draft_eq _ hname
    simp only [create, hmake, createIn, hplace', hdraft', hexist, hwrite, hrename]
  · rw [hlast, hnode, hopens.node?]
    split
    · rfl
    · split <;> rfl

theorem delete_of_taken (h : s.files.WellFormed) (hname : IsFileName name)
    (hplace : FileTree.isNameable (s.folder ns ++ [name ++ ".json"]) = .ok ()) {content : Bytes}
    (htaken : s.child? ns (name ++ ".json") = some (.file content)) :
    ∃ files, s.delete ns name = (.ok (), { s with files }) ∧ files.WellFormed ∧ ∀ l, files.node? l =
      if l = s.folder ns ++ [name ++ ".json"] then none else s.files.node? l := by
  have hremove : s.files.remove (s.folder ns ++ [name ++ ".json"]) =
      .ok (s.files.erase (s.folder ns ++ [name ++ ".json"])) := by
    rw [FileTree.remove_eq, read_entry h htaken hplace]
    rfl
  obtain ⟨hremoved, -, hnode⟩ := h.of_remove hremove
  refine ⟨_, ?_, hremoved, hnode⟩
  simp only [delete, place_of_isFileName s ns hname, hremove]

theorem delete_of_free (h : s.files.WellFormed) (hname : IsFileName name)
    (hplace : FileTree.isNameable (s.folder ns ++ [name ++ ".json"]) = .ok ())
    (hopen : s.files.IsOpen (s.folder ns)) (hfree : s.child? ns (name ++ ".json") = none) :
    s.delete ns name = (.error (.notFound name), s) := by
  have hmissing : s.files.IsMissing (s.folder ns ++ [name ++ ".json"]) := by
    cases hfolder : s.files.node? (s.folder ns) with
    | none => exact FileTree.isMissing_of_no_folder hopen hfolder hplace
    | some n =>
        cases n with
        | file content => exact absurd hfolder (hopen _ content (List.prefix_refl _))
        | folder =>
            left
            rw [h.find_in_folder hfolder hplace]
            exact congrArg Except.ok hfree
  simp only [delete, place_of_isFileName s ns hname, FileTree.remove_eq_notFound.mpr hmissing]

end DirectoryStore

/-! ## Chunks in memory -/

namespace MemoryStore

variable {m : MemoryStore} {ns name : String} {c : Chunk}

/-- No failure has been asked for. -/
structure IsUp (m : MemoryStore) : Prop where
  notDown : m.isDown = false
  failCreates : m.failCreates = 0
  failDeletes : m.failDeletes = 0

theorem contains_inNamespace (m : MemoryStore) (ns name : String) :
    (m.inNamespace ns).contains name = true ↔ (m.inNamespace ns).get? name ≠ none := by
  rw [KeyMap.contains_eq, ← Option.isSome_iff_ne_none]

theorem create_of_taken (h : m.IsUp) (htaken : (m.inNamespace c.ns).get? c.name ≠ none) :
    m.create c = (.error (.alreadyExists c.name), { m with createCalls := m.createCalls + 1 }) := by
  simp only [create]
  rw [if_neg (by simp [h.notDown]), if_neg (by simp [h.failCreates])]
  exact if_pos ((contains_inNamespace m c.ns c.name).mpr htaken)

theorem create_of_free (h : m.IsUp) (hfree : (m.inNamespace c.ns).get? c.name = none) :
    m.create c = (.ok (), ({ m with createCalls := m.createCalls + 1 } : MemoryStore).put c) := by
  simp only [create]
  rw [if_neg (by simp [h.notDown]), if_neg (by simp [h.failCreates])]
  exact if_neg fun htaken => (contains_inNamespace m c.ns c.name).mp htaken hfree

theorem delete_of_taken (h : m.IsUp) (htaken : (m.inNamespace ns).get? name ≠ none) :
    m.delete ns name = (.ok (), { m with
      deleteCalls := m.deleteCalls + 1
      chunks := m.chunks.insert ns ((m.inNamespace ns).erase name) }) := by
  simp only [delete]
  rw [if_neg (by simp [h.notDown]), if_neg (by simp [h.failDeletes])]
  exact if_pos ((contains_inNamespace m ns name).mpr htaken)

theorem delete_of_free (h : m.IsUp) (hfree : (m.inNamespace ns).get? name = none) :
    m.delete ns name = (.error (.notFound name), { m with deleteCalls := m.deleteCalls + 1 }) := by
  simp only [delete]
  rw [if_neg (by simp [h.notDown]), if_neg (by simp [h.failDeletes])]
  exact if_neg fun htaken => (contains_inNamespace m ns name).mp htaken hfree

theorem inNamespace_insert (m : MemoryStore) (ns ns' : String) (cs : KeyMap Chunk) :
    ({ m with chunks := m.chunks.insert ns cs } : MemoryStore).inNamespace ns' =
      if ns' = ns then cs else m.inNamespace ns' := by
  rw [inNamespace, KeyMap.get?_insert]
  split <;> rfl

/-- Only the namespace of a chunk takes notice of it. -/
theorem get?_inNamespace_put (m : MemoryStore) (c : Chunk) (ns name : String) :
    ((m.put c).inNamespace ns).get? name =
      if ns = c.ns ∧ name = c.name then some c else (m.inNamespace ns).get? name := by
  rw [put, inNamespace_insert]
  by_cases hns : ns = c.ns
  · rw [if_pos hns, KeyMap.get?_insert, hns]
    simp
  · rw [if_neg hns, if_neg fun h => hns h.1]

theorem get?_inNamespace_erase (m : MemoryStore) (ns name ns' name' : String) :
    (({ m with chunks := m.chunks.insert ns ((m.inNamespace ns).erase name) } : MemoryStore).inNamespace ns').get?
        name' = if ns' = ns ∧ name' = name then none else (m.inNamespace ns').get? name' := by
  rw [inNamespace_insert]
  by_cases hns : ns' = ns
  · rw [if_pos hns, KeyMap.get?_erase, hns]
    simp
  · rw [if_neg hns, if_neg fun h => hns h.1]

theorem isCalm_perform (h : m.IsUp) (call : StoreCall) : (perform m call).1.isCalm = true := by
  cases call with
  | list ns =>
      have hlist : m.list ns = .ok (m.inNamespace ns).values := list_eq_ok.mpr ⟨h.notDown, rfl⟩
      exact congrArg (fun r => (StoreReply.listed r).isCalm) hlist
  | create c =>
      change (!meetsFault (m.create c).1) = true
      by_cases hfree : (m.inNamespace c.ns).get? c.name = none
      · rw [create_of_free h hfree]
        rfl
      · rw [create_of_taken h hfree]
        rfl
  | delete ns name =>
      change (!meetsFault (m.delete ns name).1) = true
      by_cases hfree : (m.inNamespace ns).get? name = none
      · rw [delete_of_free h hfree]
        rfl
      · rw [delete_of_taken h hfree]
        rfl

/-- A call is no concern of the other namespaces. -/
theorem inNamespace_perform (h : m.IsUp) {call : StoreCall} (hne : ns ≠ call.ns) :
    (perform m call).2.inNamespace ns = m.inNamespace ns := by
  cases call with
  | list ns' => rfl
  | create c =>
      have hne : ns ≠ c.ns := hne
      change (m.create c).2.inNamespace ns = _
      by_cases hfree : (m.inNamespace c.ns).get? c.name = none
      · rw [create_of_free h hfree, put, inNamespace_insert, if_neg hne]
        rfl
      · rw [create_of_taken h hfree]
        rfl
  | delete ns' name =>
      change (m.delete ns' name).2.inNamespace ns = _
      by_cases hfree : (m.inNamespace ns').get? name = none
      · rw [delete_of_free h hfree]
        rfl
      · rw [delete_of_taken h hfree]
        exact (inNamespace_insert _ ns' ns _).trans (if_neg hne)

end MemoryStore

end EdgeFleet
