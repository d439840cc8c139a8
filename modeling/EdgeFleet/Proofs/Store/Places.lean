import EdgeFleet.Proofs.Store.Directory

/-! # The places of chunks

A chunk is created at the place of its name, and only if nothing is there. What is there need not be a chunk
of that name, or a chunk at all: the folder of a namespace may hold any files. A deletion clears a place, and
leaves all others as they are.
-/

namespace EdgeFleet

/-! ## Failures of a store -/

/-- The store itself fails. A call that it only refuses would be refused again. -/
def StoreError.isFault : StoreError → Bool
  | unavailable _ | io _ => true
  | notFound _ | alreadyExists _ => false

def meetsFault : Except StoreError Unit → Bool
  | .ok () => false
  | .error e => e.isFault

/-! ## Laws -/

/-- The name is one that snapshots give to a chunk. -/
def IsChunkName (name : String) : Prop := ∃ g i, name = Chunk.nameOf g i

/-- What is at the places of a namespace. -/
class PlacedStore (σ : Type) [ChunkStore σ] where
  Sound : String → σ → Prop
  /-- Something is at the place of the name. -/
  Taken : String → σ → (name : String) → Prop
  /-- Two names have one place. -/
  OnePlace : String → σ → (name name' : String) → Prop
  contents : String → σ → List Chunk

namespace PlacedStore

variable {σ : Type} [ChunkStore σ] [PlacedStore σ]

/-- What the creation of a chunk does to its namespace. -/
structure Creation (ns : String) (c : Chunk) (s : σ) (r : Except StoreError Unit × σ) : Prop where
  sound : Sound ns r.2
  onePlace : ∀ p n, OnePlace ns r.2 p n ↔ OnePlace ns s p n
  listable : meetsFault r.1 = false → ∃ cs, ChunkStore.list r.2 ns = .ok cs
  outcome : (r.1 = .ok () ∧ ¬Taken ns s c.name ∧ (contents ns r.2).Perm (c :: contents ns s) ∧
      ∀ n, IsChunkName n → (Taken ns r.2 n ↔ Taken ns s n ∨ n = c.name)) ∨
    r.1 ≠ .ok () ∧ (meetsFault r.1 = false → Taken ns s c.name) ∧
      (contents ns r.2).Perm (contents ns s) ∧ ∀ n, IsChunkName n → (Taken ns r.2 n ↔ Taken ns s n)

/-- What a deletion does to the namespace. -/
structure Deletion (ns name : String) (s : σ) (r : Except StoreError Unit × σ) : Prop where
  sound : Sound ns r.2
  onePlace : ∀ p n, OnePlace ns r.2 p n ↔ OnePlace ns s p n
  contents : contents ns r.2 ⊆ contents ns s
  taken : ∀ n, Taken ns r.2 n → Taken ns s n
  stays : ∀ n, Taken ns s n → ¬OnePlace ns s name n → Taken ns r.2 n
  answer : meetsFault r.1 = false → r.1 = .ok () ∨ ∃ missing, r.1 = .error (.notFound missing)
  gone : meetsFault r.1 = false → ∀ n, OnePlace ns s name n → ¬Taken ns r.2 n

end PlacedStore

open PlacedStore in
class LawfulPlaces (σ : Type) [ChunkStore σ] [PlacedStore σ] : Prop where
  list_perm {ns : String} {s : σ} {cs : List Chunk} (hs : Sound ns s)
    (h : ChunkStore.list s ns = .ok cs) : cs.Perm (contents ns s)
  onePlace_refl (ns : String) (s : σ) (n : String) : OnePlace ns s n n
  eq_of_onePlace {ns : String} {s : σ} {n n' : String} (hn : IsChunkName n) (hn' : IsChunkName n')
    (h : OnePlace ns s n n') : n = n'
  creation {ns : String} {s : σ} {c : Chunk} (hs : Sound ns s) (hns : c.ns = ns) (hc : c.IsNumbered) :
    Creation ns c s (ChunkStore.create s c)
  deletion {ns : String} {s : σ} (hs : Sound ns s) (name : String) :
    Deletion ns name s (ChunkStore.delete s ns name)

/-! ## Chunks in memory -/

namespace MemoryStore

variable {s : MemoryStore} {ns : String}

/-- A creation that is not refused by a failure finds the store up, and fails only for a chunk of that name. -/
theorem create_of_no_fault {c : Chunk} (h : meetsFault (s.create c).1 = false) :
    s.isDown = false ∧ ((s.create c).1 ≠ .ok () → (s.inNamespace c.ns).get? c.name ≠ none) := by
  simp only [create] at h ⊢
  split at h
  · cases h
  · next hup =>
    rw [Bool.not_eq_true] at hup
    split at h
    · cases h
    · split at h
      · next hcontains =>
        refine ⟨hup, fun _ => ?_⟩
        rw [KeyMap.contains_eq, Option.isSome_iff_ne_none] at hcontains
        exact hcontains
      · next hnew => simp_all

theorem delete_of_no_fault {name : String} (h : meetsFault (s.delete ns name).1 = false) :
    (s.delete ns name).1 = .ok () ∨ ∃ missing, (s.delete ns name).1 = .error (.notFound missing) := by
  simp only [delete] at h ⊢
  split at h
  · cases h
  · split at h
    · cases h
    · split at h <;> simp_all

instance : PlacedStore MemoryStore where
  Sound := Filed
  Taken ns s n := (s.inNamespace ns).get? n ≠ none
  OnePlace _ _ n n' := n = n'
  contents ns s := (s.inNamespace ns).values

instance : LawfulPlaces MemoryStore where
  list_perm _ h := (list_eq_ok.mp h).2 ▸ .refl _
  onePlace_refl _ _ _ := rfl
  eq_of_onePlace _ _ h := h
  creation {ns s c} hs hns hc := by
    subst hns
    have hvalid : LawfulStore.Valid c.ns s := hs
    have hsound : LawfulStore.Valid c.ns (ChunkStore.create s c).2 := LawfulStore.valid_create hvalid rfl hc
    refine ⟨hsound, fun _ _ => Iff.rfl, fun hcalm => ?_, ?_⟩
    · exact ⟨_, list_eq_ok.mpr ⟨(isDown_create s c).trans (create_of_no_fault hcalm).1, rfl⟩⟩
    · simp only [PlacedStore.Taken, PlacedStore.contents, ChunkStore.create]
      rcases create_cases s c with ⟨hok, hnew, heq⟩ | ⟨hfail, heq⟩
      · rw [heq]
        refine .inl ⟨hok, fun htaken => htaken hnew, KeyMap.values_insert_perm _ c hnew, fun n _ => ?_⟩
        rw [KeyMap.get?_insert]
        split
        · next hn => simp [hn]
        · next hn => simp [hn]
      · rw [heq]
        exact .inr ⟨hfail, fun hcalm => (create_of_no_fault hcalm).2 hfail, .refl _, fun _ _ => Iff.rfl⟩
  deletion {ns s} hs name := by
    have hvalid : LawfulStore.Valid ns s := hs
    have hsound : LawfulStore.Valid ns (ChunkStore.delete s ns name).2 := LawfulStore.valid_delete hvalid name
    have hsame : ∀ n c, ((s.delete ns name).2.inNamespace ns).get? n = some c →
        (s.inNamespace ns).get? n = some c := by
      intro n c hn
      rcases delete_cases s ns name with heq | ⟨heq, -⟩
      · rw [heq, KeyMap.get?_erase] at hn
        split at hn
        · cases hn
        · exact hn
      · rwa [heq] at hn
    refine ⟨hsound, fun _ _ => Iff.rfl, fun c hc => ?_, fun n hn hnone => ?_, fun n hn hne => ?_,
      delete_of_no_fault, fun hcalm => ?_⟩
    · obtain ⟨n, hn⟩ := (KeyMap.mem_values _).mp hc
      exact (KeyMap.mem_values _).mpr ⟨n, hsame n c hn⟩
    · obtain ⟨c, hc⟩ := Option.ne_none_iff_exists'.mp hn
      rw [hsame n c hc] at hnone
      cases hnone
    · simp only [PlacedStore.Taken, ChunkStore.delete] at hn ⊢
      rcases delete_cases s ns name with heq | ⟨heq, -⟩
      · rwa [heq, KeyMap.get?_erase, if_neg (Ne.symm hne)]
      · rwa [heq]
    · rintro n rfl htaken
      refine htaken ?_
      change ((s.delete ns name).2.inNamespace ns).get? name = none
      rcases delete_cases s ns name with heq | ⟨heq, hmissing | ⟨outage, hfail⟩⟩
      · rw [heq, KeyMap.get?_erase, if_pos rfl]
      · rw [heq, hmissing]
      · rw [ChunkStore.delete, instChunkStore, hfail] at hcalm
        cases hcalm

end MemoryStore

/-! ## Chunks in files -/

namespace FileTree

theorem node?_of_exist {t : FileTree} {l : Location} (h : t.exist l = .ok true) : t.node? l ≠ none := by
  unfold exist at h
  split at h
  · next n hfind =>
    rw [(find_eq_ok.mp hfind).2.2]
    rintro rfl
    cases h
  · cases h
  · cases h

end FileTree

namespace DirectoryStore

variable {s s' : DirectoryStore} {ns : String}

theorem place_chunkName (s : DirectoryStore) (ns : String) {n : String} (hn : IsChunkName n) :
    s.place ns n = s.folder ns ++ [n ++ ".json"] ∧ extension? (n ++ ".json") = some "json" := by
  have hname : IsFileName n := name_of_isNumbered (show (⟨ns, n, ∅, [], 0⟩ : Chunk).IsNumbered from hn)
  exact ⟨place_of_isFileName s ns hname, extension?_json hname.1⟩

/-! ### What is found -/

/-- The chunk that is read from what is under a name. -/
def chunkIn? (n : FileNode) : Option Chunk :=
  match n with
  | .file content => Chunk.decode? content
  | .folder => none

theorem inFile_eq (h : s.files.WellFormed) (hreadable : Readable ns s) {file : String}
    (hext : extension? file = some "json") : s.inFile ns file = (s.child? ns file).bind chunkIn? := by
  refine Option.ext fun c => ?_
  rw [inFile_eq_some, Option.bind_eq_some_iff]
  constructor
  · rintro ⟨content, hread, hdecode⟩
    exact ⟨.file content, (FileTree.find_eq_ok.mp (FileTree.read_eq_ok.mp hread)).2.2, hdecode⟩
  · rintro ⟨n, hentry, hdecode⟩
    obtain ⟨⟨content, rfl⟩, hnameable⟩ := hreadable.files file n hext hentry
    exact ⟨content, read_entry h hentry hnameable, hdecode⟩

theorem found_eq (h : s.files.WellFormed) (hreadable : Readable ns s) :
    s.found ns = (s.jsonFiles ns).filterMap fun file => (s.child? ns file).bind chunkIn? :=
  List.filterMap_congr fun _ hfile => inFile_eq h hreadable (mem_jsonFiles.mp hfile).1

section

variable (h : s.files.WellFormed) (hreadable : Readable ns s) (h' : s'.files.WellFormed)
  (hreadable' : Readable ns s')

include h hreadable h' hreadable'

theorem found_perm_of_same
    (hsame : ∀ file, extension? file = some "json" → s'.child? ns file = s.child? ns file) :
    (s'.found ns).Perm (s.found ns) := by
  have hfiles : (s'.jsonFiles ns).Perm (s.jsonFiles ns) := by
    refine (List.perm_ext_iff_of_nodup (nodup_jsonFiles h') (nodup_jsonFiles h)).mpr fun file => ?_
    rw [mem_jsonFiles, mem_jsonFiles]
    exact and_congr_right fun hext => by rw [hsame file hext]
  rw [found_eq h' hreadable', found_eq h hreadable]
  refine (hfiles.filterMap _).trans (.of_eq (List.filterMap_congr fun file hfile => ?_))
  rw [hsame file (mem_jsonFiles.mp hfile).1]

theorem found_perm_of_new {file : String} {c : Chunk} (hext : extension? file = some "json")
    (hnone : s.child? ns file = none)
    (hnew : ∀ f, extension? f = some "json" → s'.child? ns f =
      if f = file then some (.file c.encode) else s.child? ns f) :
    (s'.found ns).Perm (c :: s.found ns) := by
  have hnot : file ∉ s.jsonFiles ns := fun hmem => by
    obtain ⟨-, n, hn⟩ := mem_jsonFiles.mp hmem
    rw [hnone] at hn
    cases hn
  have hfiles : (s'.jsonFiles ns).Perm (file :: s.jsonFiles ns) := by
    refine (List.perm_ext_iff_of_nodup (nodup_jsonFiles h')
      (List.nodup_cons.mpr ⟨hnot, nodup_jsonFiles h⟩)).mpr fun f => ?_
    rw [mem_jsonFiles, List.mem_cons, mem_jsonFiles]
    by_cases hf : f = file
    · subst hf
      simp [hext, hnew f hext]
    · simp only [hf, false_or]
      exact and_congr_right fun hext => by rw [hnew f hext, if_neg hf]
  rw [found_eq h' hreadable', found_eq h hreadable]
  refine (hfiles.filterMap _).trans ?_
  rw [List.filterMap_cons, hnew file hext, if_pos rfl]
  simp only [Option.bind_some, chunkIn?, Chunk.decode?_encode]
  refine .cons _ (.of_eq (List.filterMap_congr fun f hf => ?_))
  have hne : f ≠ file := by
    rintro rfl
    exact hnot hf
  rw [hnew f (mem_jsonFiles.mp hf).1, if_neg hne]

end

/-! ### What calls do -/

/-- When the store does not fail, a creation is refused only because the file of the chunk is there. -/
theorem create_refused {c : Chunk} (h : s.files.WellFormed) (hc : IsFileName c.name)
    (hfail : (s.create c).1 ≠ .ok ()) (hcalm : meetsFault (s.create c).1 = false) :
    s.child? c.ns (fileOf c) ≠ none := by
  unfold create at hfail hcalm
  split at hfail
  · simp_all [meetsFault, StoreError.isFault]
  · next files hmake =>
    have hopens := FileTree.opens_of_makeFolders h hmake
    have hentry : files.node? (s.folder c.ns ++ [fileOf c]) = s.child? c.ns (fileOf c) :=
      (hopens.same _).resolve_right fun hfront => front_ne_file hfront.1 rfl
    simp only [hmake] at hcalm
    unfold createIn at hfail hcalm
    rw [place_eq _ hc] at hfail hcalm
    split at hfail
    · simp_all [meetsFault, StoreError.isFault]
    · next hexist => exact hentry ▸ FileTree.node?_of_exist hexist
    · split at hfail
      · simp_all [meetsFault, StoreError.isFault]
      · split at hfail
        · simp_all [meetsFault, StoreError.isFault]
        · exact absurd rfl hfail

theorem delete_of_no_fault {name : String} (h : meetsFault (s.delete ns name).1 = false) :
    (s.delete ns name).1 = .ok () ∨ ∃ missing, (s.delete ns name).1 = .error (.notFound missing) := by
  unfold delete at h ⊢
  split at h
  · exact .inl rfl
  · exact .inr ⟨_, rfl⟩
  · cases h

theorem node?_delete (h : s.files.WellFormed) (ns name : String) (l : Location) :
    (s.delete ns name).2.files.node? l = s.files.node? l ∨
      l = s.place ns name ∧ (s.delete ns name).2.files.node? l = none := by
  unfold delete
  split
  · next files hremove =>
    obtain ⟨-, -, hnode⟩ := h.of_remove hremove
    by_cases hl : l = s.place ns name
    · exact .inr ⟨hl, by simp [hnode, hl]⟩
    · exact .inl (by simp [hnode, hl])
  · exact .inl rfl
  · exact .inl rfl

theorem place_of_root (h : s'.root = s.root) (ns n : String) : s'.place ns n = s.place ns n := by
  rw [place, place, folder, folder, h]

/-! ### The laws -/

instance : PlacedStore DirectoryStore where
  Sound ns s := s.files.WellFormed ∧ Readable ns s
  Taken ns s n := s.files.node? (s.place ns n) ≠ none
  OnePlace ns s n n' := s.place ns n = s.place ns n'
  contents ns s := s.found ns

theorem taken_chunkName {n : String} (hn : IsChunkName n) :
    PlacedStore.Taken ns s n ↔ s.child? ns (n ++ ".json") ≠ none := by
  rw [PlacedStore.Taken, child?, ← (place_chunkName s ns hn).1]
  rfl

theorem Created.creation {c : Chunk} {r : Except StoreError Unit × DirectoryStore} (hr : Created c s r)
    (h : s.files.WellFormed) (hreadable : Readable c.ns s) (hreadable' : Readable c.ns r.2) (hc : c.IsNumbered)
    (hrefused : r.1 ≠ .ok () → meetsFault r.1 = false → s.child? c.ns (fileOf c) ≠ none) :
    PlacedStore.Creation c.ns c s r := by
  have hsound : PlacedStore.Sound c.ns r.2 := ⟨hr.wellFormed, hreadable'⟩
  have honePlace : ∀ p n, PlacedStore.OnePlace c.ns r.2 p n ↔ PlacedStore.OnePlace c.ns s p n := fun p n => by
    simp only [PlacedStore.OnePlace, place_of_root hr.root]
  refine ⟨hsound, honePlace, fun _ => ?_, ?_⟩
  · rcases list_spec hr.wellFormed with ⟨-, hlist⟩ | ⟨hnot, -⟩
    · exact ⟨_, hlist⟩
    · exact absurd hreadable' hnot
  · rcases hr.entries with ⟨hfail, hsame⟩ | ⟨hok, -, hnone, hnew⟩
    · refine .inr ⟨hfail, ?_, found_perm_of_same h hreadable hr.wellFormed hreadable' hsame, fun n hn => ?_⟩
      · exact fun hcalm => (taken_chunkName hc).mpr (hrefused hfail hcalm)
      · rw [taken_chunkName hn, taken_chunkName hn, hsame _ (place_chunkName s c.ns hn).2]
    · refine .inl ⟨hok, fun htaken => (taken_chunkName hc).mp htaken hnone,
        found_perm_of_new h hreadable hr.wellFormed hreadable' (extension?_fileOf (name_of_isNumbered hc)) hnone hnew, fun n hn => ?_⟩
      rw [taken_chunkName hn, taken_chunkName hn, hnew _ (place_chunkName s c.ns hn).2]
      have hfile : n ++ ".json" = fileOf c ↔ n = c.name := by simp [fileOf]
      split
      · next heq => simp [hfile.mp heq]
      · next hne => simp [mt hfile.mpr hne]

theorem Deleted.deletion {name : String} {r : Except StoreError Unit × DirectoryStore} (hr : Deleted ns name s r)
    (h : s.files.WellFormed) (hreadable : Readable ns s)
    (hsame : ∀ l, r.2.files.node? l = s.files.node? l ∨ l = s.place ns name ∧ r.2.files.node? l = none)
    (hanswer : meetsFault r.1 = false → r.1 = .ok () ∨ ∃ missing, r.1 = .error (.notFound missing)) :
    PlacedStore.Deletion ns name s r := by
  have hreadable' := hr.readable hreadable
  have hplace := place_of_root hr.root ns
  refine ⟨⟨hr.wellFormed, hreadable'⟩, fun p n => ?_, fun c hc => ?_, fun n hn => ?_, fun n hn hne => ?_,
    hanswer, fun hcalm n hn htaken => htaken ?_⟩
  · simp only [PlacedStore.OnePlace, hplace]
  · exact (mem_found h hreadable).mpr (hr.holds ((mem_found hr.wellFormed hreadable').mp hc))
  · simp only [PlacedStore.Taken, hplace] at hn ⊢
    rcases hsame (s.place ns n) with heq | ⟨-, hnone⟩
    · rwa [← heq]
    · exact absurd hnone hn
  · simp only [PlacedStore.Taken, PlacedStore.OnePlace, hplace] at hn hne ⊢
    rcases hsame (s.place ns n) with heq | ⟨heq, -⟩
    · rwa [heq]
    · exact absurd heq.symm hne
  · rw [hplace, ← hn]
    exact hr.gone (hanswer hcalm)

instance : LawfulPlaces DirectoryStore where
  list_perm {ns s cs} hs h := by
    rcases list_spec hs.1 with ⟨-, hlist⟩ | ⟨hnot, -⟩
    · rw [← Except.ok.inj (hlist.symm.trans h)]
      exact .refl _
    · exact absurd hs.2 hnot
  onePlace_refl _ _ _ := rfl
  eq_of_onePlace {ns s n n'} hn hn' h := by
    have hplaces : s.place ns n = s.place ns n' := h
    rw [(place_chunkName s ns hn).1, (place_chunkName s ns hn').1] at hplaces
    simpa using hplaces
  creation {ns s c} hs hns hc := by
    subst hns
    have hname := name_of_isNumbered hc
    obtain ⟨hcreated, hopen⟩ := create_spec hs.1 hname
    exact hcreated.creation hs.1 hs.2 (hcreated.readable hopen hs.2) hc (create_refused hs.1 hname)
  deletion {ns s} hs name := (delete_spec hs.1 ns name).deletion hs.1 hs.2
    (node?_delete hs.1 ns name) delete_of_no_fault

end DirectoryStore

end EdgeFleet
