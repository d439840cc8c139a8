import EdgeFleet.Files.Tree
import EdgeFleet.KeyMap.Lemmas
import Mathlib.Data.List.Basic
import Mathlib.Data.List.Infix
import Mathlib.Data.List.Nodup
import Mathlib.Data.List.TakeWhile

/-! # Operations on a tree of files

The operations keep a tree in order, and each of them changes what is at few locations.
-/

namespace EdgeFleet

/-! ## Locations -/

namespace Location

theorem mem_fronts {front l : Location} : front ∈ fronts l ↔ front <+: l := by
  constructor
  · intro h
    obtain ⟨n, -, rfl⟩ := List.mem_map.mp h
    exact List.take_prefix n l
  · intro h
    refine List.mem_map.mpr ⟨front.length, ?_, (List.prefix_iff_eq_take.mp h).symm⟩
    exact List.mem_range.mpr (Nat.lt_succ_of_le h.length_le)

theorem fronts_concat (l : Location) (name : String) :
    fronts (l ++ [name]) = fronts l ++ [l ++ [name]] := by
  rw [fronts, List.length_append, List.length_singleton, List.range_succ, List.map_append,
    List.map_singleton]
  congr 1
  · refine List.map_congr_left fun n hn => ?_
    exact List.take_append_of_le_length (Nat.le_of_lt_succ (List.mem_range.mp hn))
  · rw [List.take_of_length_le (by simp)]

theorem splitSlashes_of_not_mem {cs : List Char} (h : '/' ∉ cs) : splitSlashes cs = [cs] := by
  induction cs with
  | nil => rfl
  | cons c cs ih =>
      rw [List.mem_cons, not_or] at h
      obtain ⟨hc, hcs⟩ := h
      rw [splitSlashes, List.foldr_cons, ← splitSlashes, ih hcs, if_neg (Ne.symm hc)]

theorem origin_of_not_mem (l : Location) {path : String} (h : '/' ∉ path.toList) : origin l path = l := by
  rw [origin, if_neg]
  exact fun hhead => h (List.mem_of_head? hhead)

/-- A path that is one name, and neither stays nor goes up, leads to that name. -/
theorem join_of_name (l : Location) {name : String} (hslash : '/' ∉ name.toList)
    (hstay : ¬(name.toList = [] ∨ name.toList = ['.'])) (hup : name.toList ≠ ['.', '.']) :
    join l name = l ++ [name] := by
  rw [join, origin_of_not_mem l hslash, splitSlashes_of_not_mem hslash, List.foldl_cons, List.foldl_nil, follow,
    if_neg hstay, if_neg hup, String.ofList_toList]

/-- A long name does not stay or go up. -/
theorem join_name (l : Location) {name : String} (hslash : '/' ∉ name.toList)
    (hlong : 2 < name.toList.length) : join l name = l ++ [name] := by
  have hne : ∀ cs : List Char, cs.length ≤ 2 → name.toList ≠ cs := fun cs hcs heq => by
    rw [heq] at hlong
    omega
  exact join_of_name l hslash (not_or.mpr ⟨hne [] (by decide), hne ['.'] (by decide)⟩)
    (hne ['.', '.'] (by decide))

/-- The last part of a path takes up what is written after it. -/
theorem splitSlashes_append (cs : List Char) {ext : List Char} (h : '/' ∉ ext) :
    ∃ parts last, splitSlashes (cs ++ ext) = parts ++ [last ++ ext] := by
  induction cs with
  | nil => exact ⟨[], [], splitSlashes_of_not_mem h⟩
  | cons c cs ih =>
      obtain ⟨parts, last, hsplit⟩ := ih
      rw [List.cons_append, splitSlashes, List.foldr_cons, ← splitSlashes, hsplit]
      by_cases hc : c = '/'
      · exact ⟨[] :: parts, last, by rw [if_pos hc, List.cons_append]⟩
      · rw [if_neg hc]
        cases parts with
        | nil => exact ⟨[], c :: last, rfl⟩
        | cons part parts => exact ⟨(c :: part) :: parts, last, rfl⟩

/-- A path with an ending leads to a name with that ending. -/
theorem join_append (l : Location) (path ext : String) (hslash : '/' ∉ ext.toList)
    (hlong : 2 < ext.toList.length) :
    ∃ front last, join l (path ++ ext) = front ++ [String.ofList (last ++ ext.toList)] := by
  obtain ⟨parts, last, hsplit⟩ := splitSlashes_append path.toList hslash
  have hne : ∀ cs : List Char, cs.length ≤ 2 → last ++ ext.toList ≠ cs := fun cs hcs heq => by
    have hlength := congrArg List.length heq
    rw [List.length_append] at hlength
    omega
  have hstay : ¬(last ++ ext.toList = [] ∨ last ++ ext.toList = ['.']) :=
    not_or.mpr ⟨hne [] (by decide), hne ['.'] (by decide)⟩
  refine ⟨parts.foldl follow (origin l (path ++ ext)), last, ?_⟩
  rw [join, String.toList_append, hsplit, List.foldl_append, List.foldl_cons, List.foldl_nil, follow,
    if_neg hstay, if_neg (hne ['.', '.'] (by decide))]

end Location

namespace FileTree

variable {t t' : FileTree} {l l' : Location}

/-! ## What is at a location -/

theorem node?_nil (t : FileTree) : t.node? [] = some .folder := rfl

theorem lookup_filter_ne (es : List (Location × FileNode)) (l l' : Location) :
    (es.filter fun e => e.1 ≠ l).lookup l' = if l' = l then none else es.lookup l' := by
  induction es with
  | nil => simp
  | cons e es ih =>
      obtain ⟨k, n⟩ := e
      by_cases hk : k = l
      · subst hk
        rw [List.filter_cons_of_neg (by simp), ih]
        by_cases hl : l' = k
        · simp [hl]
        · rw [if_neg hl, if_neg hl, lookup_cons_of_ne hl]
      · rw [List.filter_cons_of_pos (by simpa using hk)]
        by_cases hl : l' = k
        · simp [hl, hk]
        · rw [lookup_cons_of_ne hl, lookup_cons_of_ne hl, ih]

theorem node?_put (hl : l ≠ []) (n : FileNode) (l' : Location) :
    (t.put l n).node? l' = if l' = l then some n else t.node? l' := by
  by_cases h : l' = l
  · subst h
    simp [node?, put, hl]
  · by_cases hnil : l' = []
    · simp [node?, hnil, Ne.symm hl]
    · simp only [node?, put, if_neg hnil, if_neg h]
      rw [lookup_cons_of_ne h, lookup_filter_ne, if_neg h]

theorem node?_erase (hl : l ≠ []) (l' : Location) :
    (t.erase l).node? l' = if l' = l then none else t.node? l' := by
  by_cases h : l' = l
  · subst h
    simp only [node?, erase, if_neg hl, if_true]
    rw [lookup_filter_ne, if_pos rfl]
  · by_cases hnil : l' = []
    · simp [node?, hnil, Ne.symm hl]
    · simp only [node?, erase, if_neg hnil, if_neg h]
      rw [lookup_filter_ne, if_neg h]

/-- Nothing is listed twice, and everything is in a folder. -/
structure WellFormed (t : FileTree) : Prop where
  nodup : (t.nodes.map (·.1)).Nodup
  parent : ∀ l n, t.node? l = some n → t.node? l.dropLast = some .folder

theorem WellFormed.empty : WellFormed empty where
  nodup := List.nodup_nil
  parent l n h := by
    by_cases hl : l = []
    · subst hl
      rfl
    · simp [node?, FileTree.empty, hl] at h

theorem ne_nil_of_file {content : Bytes} (h : t.node? l = some (.file content)) : l ≠ [] := by
  rintro rfl
  cases h

namespace WellFormed

theorem put (h : WellFormed t) (hl : l ≠ []) (hparent : t.node? l.dropLast = some .folder)
    {n : FileNode} (hkeep : t.node? l = some .folder → n = .folder) : WellFormed (t.put l n) where
  nodup := by
    rw [FileTree.put, List.map_cons, List.nodup_cons]
    refine ⟨fun hmem => ?_, h.nodup.sublist (List.filter_sublist.map _)⟩
    obtain ⟨e, he, heq⟩ := List.mem_map.mp hmem
    simpa [heq] using (List.mem_filter.mp he).2
  parent l' n' h' := by
    rw [node?_put hl]
    split
    · next heq =>
      -- The location became a parent, so it was a folder before.
      rw [node?_put hl] at h'
      split at h'
      · next hsame =>
        rw [hsame] at heq
        exact absurd (congrArg List.length heq) (by
          have := List.length_pos_iff.mpr hl
          simp only [List.length_dropLast]
          omega)
      · rw [hkeep (heq ▸ h.parent l' n' h')]
    · rw [node?_put hl] at h'
      split at h'
      · next hsame =>
        rw [hsame]
        exact hparent
      · exact h.parent l' n' h'

theorem erase (h : WellFormed t) {content : Bytes} (hfile : t.node? l = some (.file content)) :
    WellFormed (t.erase l) where
  nodup := h.nodup.sublist (List.filter_sublist.map _)
  parent l' n' h' := by
    have hl : l ≠ [] := ne_nil_of_file hfile
    rw [node?_erase hl] at h' ⊢
    split at h'
    · cases h'
    · have hparent := h.parent l' n' h'
      split
      · next heq =>
        rw [heq, hfile] at hparent
        cases hparent
      · exact hparent

/-- All on the way to a location are folders. -/
theorem folders (h : WellFormed t) {n : FileNode} (hnode : t.node? l = some n) {front : Location}
    (hfront : front <+: l.dropLast) : t.node? front = some .folder := by
  induction l using List.reverseRecOn generalizing n with
  | nil =>
      rw [List.dropLast_nil, List.prefix_nil] at hfront
      rw [hfront, node?_nil]
  | append_singleton l name ih =>
      have hparent := h.parent _ _ hnode
      rw [List.dropLast_concat] at hparent hfront
      by_cases hsame : front = l
      · rwa [hsame]
      · refine ih hparent ?_
        rcases List.eq_nil_or_concat l with rfl | ⟨init, last, rfl⟩
        · exact absurd (List.prefix_nil.mp hfront) hsame
        · rw [List.concat_eq_append] at hfront hsame ⊢
          rw [List.dropLast_concat]
          exact (List.prefix_concat_iff.mp hfront).resolve_left hsame

theorem folders_of_folder (h : WellFormed t) (hfolder : t.node? l = some .folder) {front : Location}
    (hfront : front <+: l) : t.node? front = some .folder := by
  rcases List.eq_nil_or_concat l with rfl | ⟨init, name, rfl⟩
  · rw [List.prefix_nil.mp hfront, node?_nil]
  · rw [List.concat_eq_append] at hfront hfolder
    rcases List.prefix_concat_iff.mp hfront with rfl | hfront
    · exact hfolder
    · exact h.folders hfolder (by rwa [List.dropLast_concat])

end WellFormed

/-! ## Looking at a location -/

theorem bind_eq_ok {ε α β : Type} {x : Except ε α} {f : α → Except ε β} {b : β} :
    x >>= f = .ok b ↔ ∃ a, x = .ok a ∧ f a = .ok b := by
  cases x with
  | error e => simp [bind, Except.bind]
  | ok a => simp [bind, Except.bind]

theorem checkNames_cases (l : Location) : checkNames l = .ok () ∧ (∀ name ∈ l, '\x00' ∉ name.toList) ∨
    checkNames l = .error .invalidInput ∧ ∃ name ∈ l, '\x00' ∈ name.toList := by
  unfold checkNames
  split
  · next hnul =>
    obtain ⟨name, hname, hmem⟩ := List.any_eq_true.mp hnul
    exact .inr ⟨rfl, name, hname, by simpa using hmem⟩
  · next hnul =>
    exact .inl ⟨rfl, fun name hname hmem => hnul (List.any_eq_true.mpr ⟨name, hname, by simpa using hmem⟩)⟩

theorem checkLengths_cases (l : Location) :
    checkLengths l = .ok () ∧ (∀ name ∈ l, name.utf8ByteSize ≤ maxName) ∨
      checkLengths l = .error .invalidFilename ∧ ∃ name ∈ l, maxName < name.utf8ByteSize := by
  unfold checkLengths
  split
  · next hlong =>
    obtain ⟨name, hname, hsize⟩ := List.any_eq_true.mp hlong
    exact .inr ⟨rfl, name, hname, by simpa using hsize⟩
  · next hlong =>
    exact .inl ⟨rfl, fun name hname => Nat.le_of_not_lt fun hsize =>
      hlong (List.any_eq_true.mpr ⟨name, hname, decide_eq_true hsize⟩)⟩

theorem isNameable_iff_checks : isNameable l = .ok () ↔ checkNames l = .ok () ∧ checkLengths l = .ok () := by
  unfold isNameable
  cases checkNames l <;> simp [bind, Except.bind]

theorem isNameable_ne_notFound (l : Location) : isNameable l ≠ .error .notFound := by
  unfold isNameable
  rcases checkNames_cases l with ⟨hnames, -⟩ | ⟨hnames, -⟩ <;>
    rcases checkLengths_cases l with ⟨hlengths, -⟩ | ⟨hlengths, -⟩ <;>
      simp [hnames, hlengths, bind, Except.bind]

theorem isNameable_eq_ok : isNameable l = .ok () ↔
    ∀ name ∈ l, '\x00' ∉ name.toList ∧ name.utf8ByteSize ≤ maxName := by
  rw [isNameable_iff_checks]
  constructor
  · rintro ⟨hnames, hlengths⟩ name hname
    rcases checkNames_cases l with ⟨-, hnul⟩ | ⟨hfail, -⟩
    · rcases checkLengths_cases l with ⟨-, hshort⟩ | ⟨hfail, -⟩
      · exact ⟨hnul name hname, hshort name hname⟩
      · cases hlengths.symm.trans hfail
    · cases hnames.symm.trans hfail
  · intro h
    refine ⟨(checkNames_cases l).resolve_right ?_ |>.1, (checkLengths_cases l).resolve_right ?_ |>.1⟩
    · rintro ⟨-, name, hname, hnul⟩
      exact (h name hname).1 hnul
    · rintro ⟨-, name, hname, hlong⟩
      exact Nat.not_le.mpr hlong (h name hname).2

/-- Where no name is too long, the whole way counts. -/
theorem reach_of_isNameable (h : isNameable l = .ok ()) : reach l = l :=
  List.takeWhile_eq_self_iff.mpr fun name hname => decide_eq_true (isNameable_eq_ok.mp h name hname).2

theorem isNameable_concat {name : String} : isNameable (l ++ [name]) = .ok () ↔
    isNameable l = .ok () ∧ '\x00' ∉ name.toList ∧ name.utf8ByteSize ≤ maxName := by
  simp only [isNameable_eq_ok, List.forall_mem_append, List.forall_mem_singleton]

/-- No file is in the way to a location. -/
def IsOpen (t : FileTree) (l : Location) : Prop :=
  ∀ front content, front <+: l → t.node? front ≠ some (.file content)

theorem any_file_eq_false : ((Location.fronts l).any fun front => t.node? front matches some (.file _)) =
    false ↔ t.IsOpen l := by
  simp only [List.any_eq_false, Location.mem_fronts]
  constructor
  · intro h front content hfront hfile
    simpa [hfile] using h front hfront
  · intro h front hfront hfile
    split at hfile
    · next content heq => exact h front content hfront heq
    · cases hfile

theorem checkFolder_cases (t : FileTree) (l : Location) :
    ¬t.IsOpen l ∧ t.checkFolder l = .error .notADirectory ∨
      t.IsOpen l ∧ t.node? l = some .folder ∧ t.checkFolder l = .ok () ∨
      t.IsOpen l ∧ t.node? l ≠ some .folder ∧ t.checkFolder l = .error .notFound := by
  unfold checkFolder
  cases hopen : (Location.fronts l).any fun front => t.node? front matches some (.file _) with
  | true => exact .inl ⟨fun h => by simp [any_file_eq_false.mpr h] at hopen, rfl⟩
  | false =>
      have hopen := any_file_eq_false.mp hopen
      by_cases hfolder : t.node? l = some .folder <;> simp [hopen, hfolder]

theorem checkFolder_eq_ok : t.checkFolder l = .ok () ↔ t.IsOpen l ∧ t.node? l = some .folder := by
  rcases checkFolder_cases t l with ⟨hopen, h⟩ | ⟨hopen, hfolder, h⟩ | ⟨hopen, hfolder, h⟩ <;>
    simp [*]

theorem WellFormed.isOpen (h : WellFormed t) {n : FileNode} (hnode : t.node? l = some n) :
    t.IsOpen l.dropLast := by
  intro front content hfront hfile
  rw [h.folders hnode hfront] at hfile
  cases hfile

theorem WellFormed.isOpen_of_folder (h : WellFormed t) (hfolder : t.node? l = some .folder) : t.IsOpen l := by
  intro front content hfront hfile
  rw [h.folders_of_folder hfolder hfront] at hfile
  cases hfile

theorem WellFormed.checkFolder (h : WellFormed t) {n : FileNode} (hnode : t.node? l = some n) :
    t.checkFolder l.dropLast = .ok () :=
  checkFolder_eq_ok.mpr ⟨h.isOpen hnode, h.parent l n hnode⟩

theorem find_eq_ok {o : Option FileNode} : t.find l = .ok o ↔
    isNameable l = .ok () ∧ t.checkFolder l.dropLast = .ok () ∧ t.node? l = o := by
  have hreach : isNameable l = .ok () → reach l.dropLast = l.dropLast := fun h =>
    reach_of_isNameable (isNameable_eq_ok.mpr fun name hname =>
      isNameable_eq_ok.mp h name (List.mem_of_mem_dropLast hname))
  constructor
  · intro h
    obtain ⟨_, hnames, h⟩ := bind_eq_ok.mp h
    obtain ⟨_, hcheck, h⟩ := bind_eq_ok.mp h
    obtain ⟨_, hlengths, h⟩ := bind_eq_ok.mp h
    have hname := isNameable_iff_checks.mpr ⟨hnames, hlengths⟩
    rw [hreach hname] at hcheck
    exact ⟨hname, hcheck, Except.ok.inj h⟩
  · rintro ⟨hname, hcheck, rfl⟩
    obtain ⟨hnames, hlengths⟩ := isNameable_iff_checks.mp hname
    simp [find, hnames, hlengths, hreach hname, hcheck, bind, Except.bind, pure, Except.pure]

/-- A name that is too long is noticed in its folder. -/
theorem find_of_long (h : isNameable l = .ok ()) {name : String} (hnul : '\x00' ∉ name.toList)
    (hlong : maxName < name.utf8ByteSize) :
    t.find (l ++ [name]) = (t.checkFolder l).bind fun _ => .error .invalidFilename := by
  have hnames : checkNames (l ++ [name]) = .ok () := by
    refine ((checkNames_cases _).resolve_right ?_).1
    rintro ⟨-, name', hname', hnul'⟩
    rcases List.mem_append.mp hname' with hname' | hname'
    · exact (isNameable_eq_ok.mp h name' hname').1 hnul'
    · exact hnul (List.mem_singleton.mp hname' ▸ hnul')
  have hlengths : checkLengths (l ++ [name]) = .error .invalidFilename := by
    refine ((checkLengths_cases _).resolve_left ?_).1
    rintro ⟨-, hshort⟩
    exact Nat.not_le.mpr hlong (hshort name (by simp))
  simp [find, hnames, hlengths, reach_of_isNameable h, bind, Except.bind]

/-- In a folder anything can be looked for under a name. -/
theorem WellFormed.find_in_folder (h : WellFormed t) (hfolder : t.node? l = some .folder) {name : String}
    (hname : isNameable (l ++ [name]) = .ok ()) : t.find (l ++ [name]) = .ok (t.node? (l ++ [name])) := by
  refine find_eq_ok.mpr ⟨hname, ?_, rfl⟩
  rw [List.dropLast_concat]
  exact checkFolder_eq_ok.mpr ⟨h.isOpen_of_folder hfolder, hfolder⟩

/-- What cannot be found: it is missing, or its folder is. -/
def IsMissing (t : FileTree) (l : Location) : Prop :=
  t.find l = .ok none ∨ t.find l = .error .notFound

theorem WellFormed.of_isMissing (h : WellFormed t) (hmissing : t.IsMissing l) : t.node? l = none := by
  refine Option.eq_none_iff_forall_ne_some.mpr fun n hnode => ?_
  rcases hmissing with hfind | hfind
  · rw [(find_eq_ok.mp hfind).2.2] at hnode
    cases hnode
  · -- All on the way are folders, so that only the names can be refused.
    have hcheck : t.checkFolder (reach l.dropLast) = .ok () := by
      have hfolder := h.folders hnode (List.takeWhile_prefix fun name => decide (name.utf8ByteSize ≤ maxName))
      exact checkFolder_eq_ok.mpr ⟨h.isOpen_of_folder hfolder, hfolder⟩
    rcases checkNames_cases l with ⟨hnames, -⟩ | ⟨hnames, -⟩ <;>
      rcases checkLengths_cases l with ⟨hlengths, -⟩ | ⟨hlengths, -⟩ <;>
        simp [find, hnames, hcheck, hlengths, bind, Except.bind, pure, Except.pure] at hfind

/-- Where no folder is, and no file in the way, nothing is found. -/
theorem isMissing_of_no_folder (hopen : t.IsOpen l) (hfolder : t.node? l = none) {name : String}
    (hname : isNameable (l ++ [name]) = .ok ()) : t.IsMissing (l ++ [name]) := by
  right
  rcases checkFolder_cases t l with ⟨hclosed, -⟩ | ⟨-, hthere, -⟩ | ⟨-, -, hcheck⟩
  · exact absurd hopen hclosed
  · rw [hfolder] at hthere
    cases hthere
  · obtain ⟨hnames, -⟩ := isNameable_iff_checks.mp hname
    have hreach := reach_of_isNameable (isNameable_concat.mp hname).1
    simp [find, hnames, hreach, hcheck, bind, Except.bind]

/-! ## Reading -/

theorem exist_eq_false : t.exist l = .ok false ↔ t.IsMissing l := by
  unfold exist IsMissing
  cases t.find l with
  | error e => cases e <;> simp
  | ok o => simp

theorem read_eq_ok {content : Bytes} : t.read l = .ok content ↔ t.find l = .ok (some (.file content)) := by
  unfold read
  cases t.find l with
  | error e => simp [bind, Except.bind]
  | ok o =>
      rcases o with _ | (_ | _) <;>
        simp [bind, Except.bind, pure, Except.pure, throw, throwThe, MonadExceptOf.throw]

theorem exist_of_read {content : Bytes} (hread : t.read l = .ok content) : t.exist l = .ok true := by
  rw [exist, read_eq_ok.mp hread]
  rfl

/-- A file that is still where it was can still be read. -/
theorem read_of_same (h : WellFormed t') {content : Bytes} (hread : t.read l = .ok content)
    (hsame : t'.node? l = t.node? l) : t'.read l = .ok content := by
  obtain ⟨hname, -, hnode⟩ := find_eq_ok.mp (read_eq_ok.mp hread)
  have hnode' := hsame.trans hnode
  exact read_eq_ok.mpr (find_eq_ok.mpr ⟨hname, h.checkFolder hnode', hnode'⟩)

theorem read_eq_notFound : t.read l = .error .notFound ↔ t.IsMissing l := by
  unfold read IsMissing
  cases t.find l with
  | error e => simp [bind, Except.bind]
  | ok o =>
      rcases o with _ | (_ | _) <;>
        simp [bind, Except.bind, pure, Except.pure, throw, throwThe, MonadExceptOf.throw]

/-! ## Changing -/

/-- One more folder, unless something is there. -/
def openFolder (t : FileTree) (front : Location) : FileTree :=
  if (t.node? front).isSome then t else t.put front .folder

/-- What making folders on the way to a location changes. -/
structure Opens (l : Location) (t t' : FileTree) : Prop where
  wellFormed : WellFormed t'
  folder : ∀ front, front <+: l → t'.node? front = some .folder
  same : ∀ l', t'.node? l' = t.node? l' ∨ l' <+: l ∧ t.node? l' = none

theorem Opens.node? (h : Opens l t t') (l' : Location) :
    t'.node? l' = if l' <+: l then some .folder else t.node? l' := by
  split
  · next hfront => exact h.folder l' hfront
  · next hother => exact (h.same l').resolve_right fun hfront => hother hfront.1

theorem opens_foldl (h : WellFormed t) (hopen : t.IsOpen l) :
    Opens l t ((Location.fronts l).foldl openFolder t) := by
  induction l using List.reverseRecOn with
  | nil =>
      refine ⟨h, fun front hfront => ?_, fun l' => .inl rfl⟩
      rw [List.prefix_nil.mp hfront]
      rfl
  | append_singleton l name ih =>
      have hparents := ih fun front content hfront =>
        hopen front content (hfront.trans (List.prefix_append l [name]))
      rw [Location.fronts_concat, List.foldl_append, List.foldl_cons, List.foldl_nil]
      generalize (Location.fronts l).foldl openFolder t = t₁ at hparents
      have hlast : t₁.node? (l ++ [name]) = t.node? (l ++ [name]) :=
        (hparents.same _).resolve_right fun hfront => by
          have hlength := hfront.1.length_le
          simp only [List.length_append, List.length_singleton] at hlength
          omega
      unfold openFolder
      cases hnode : t₁.node? (l ++ [name]) with
      | some n =>
          have hfolder : n = .folder := by
            cases n with
            | folder => rfl
            | file content => exact absurd (hlast ▸ hnode) (hopen _ content (List.prefix_refl _))
          refine ⟨hparents.wellFormed, fun front hfront => ?_, fun l' => ?_⟩
          · rcases List.prefix_concat_iff.mp hfront with rfl | hfront
            · rw [← List.concat_eq_append] at hnode
              simpa [hfolder] using hnode
            · exact hparents.folder front hfront
          · exact (hparents.same l').imp_right fun h => ⟨h.1.trans (List.prefix_append l [name]), h.2⟩
      | none =>
          have hne : l ++ [name] ≠ [] := by simp
          have hput : WellFormed (t₁.put (l ++ [name]) .folder) :=
            hparents.wellFormed.put hne (by
              rw [List.dropLast_concat]
              exact hparents.folder l (List.prefix_refl l)) fun _ => rfl
          refine ⟨hput, fun front hfront => ?_, fun l' => ?_⟩
          · rw [Option.isSome_none, if_neg Bool.false_ne_true, node?_put hne]
            split
            · rfl
            · next hother =>
              exact hparents.folder front ((List.prefix_concat_iff.mp hfront).resolve_left hother)
          · rw [Option.isSome_none, if_neg Bool.false_ne_true, node?_put hne]
            split
            · next heq => exact .inr ⟨heq ▸ List.prefix_refl _, by rw [heq, ← hlast, hnode]⟩
            · exact (hparents.same l').imp_right fun h => ⟨h.1.trans (List.prefix_append l [name]), h.2⟩

theorem makeFolders_eq_ok : t.makeFolders l = .ok t' ↔
    isNameable l = .ok () ∧ t.IsOpen l ∧ t' = (Location.fronts l).foldl openFolder t := by
  unfold makeFolders
  cases hname : isNameable l with
  | error e => simp [bind, Except.bind]
  | ok _ =>
      simp only [bind, Except.bind, pure, Except.pure, throw, throwThe, MonadExceptOf.throw, true_and]
      split
      · next hfile =>
        have hclosed : ¬t.IsOpen l := fun hopen => hopen l _ (List.prefix_refl l) hfile
        simp [hclosed]
      · rw [if_neg Bool.false_ne_true]
        split
        · next hfile =>
          have hclosed : ¬t.IsOpen l := fun hopen => Bool.false_ne_true ((any_file_eq_false.mpr hopen).symm.trans hfile)
          simp [hclosed]
        · next hopen =>
          have hopen : t.IsOpen l := any_file_eq_false.mp (Bool.eq_false_iff.mpr hopen)
          simp only [hopen, true_and, Except.ok.injEq]
          exact eq_comm

theorem opens_of_makeFolders (h : WellFormed t) (hmake : t.makeFolders l = .ok t') : Opens l t t' := by
  obtain ⟨-, hopen, rfl⟩ := makeFolders_eq_ok.mp hmake
  exact opens_foldl h hopen

theorem exists_makeFolders (h : WellFormed t) (hname : isNameable l = .ok ()) (hopen : t.IsOpen l) :
    ∃ t', t.makeFolders l = .ok t' ∧ Opens l t t' := by
  have hmake := makeFolders_eq_ok.mpr ⟨hname, hopen, rfl⟩
  exact ⟨_, hmake, opens_of_makeFolders h hmake⟩

theorem foldl_openFolder_eq {ls : List Location} (h : ∀ front ∈ ls, (t.node? front).isSome = true) :
    ls.foldl openFolder t = t := by
  induction ls with
  | nil => rfl
  | cons front ls ih =>
      obtain ⟨hfront, hls⟩ := List.forall_mem_cons.mp h
      rw [List.foldl_cons, openFolder, if_pos hfront]
      exact ih hls

/-- Where there is a folder, none is made. -/
theorem makeFolders_of_folder (h : WellFormed t) (hname : isNameable l = .ok ())
    (hfolder : t.node? l = some .folder) : t.makeFolders l = .ok t := by
  refine makeFolders_eq_ok.mpr ⟨hname, h.isOpen_of_folder hfolder, (foldl_openFolder_eq fun front hfront => ?_).symm⟩
  rw [h.folders_of_folder hfolder (Location.mem_fronts.mp hfront)]
  rfl

theorem node?_openFolder (t : FileTree) (front l : Location) :
    (t.openFolder front).node? l = t.node? l ∨
      t.node? l = none ∧ (t.openFolder front).node? l = some .folder := by
  unfold openFolder
  split
  · exact .inl rfl
  · next hnone =>
    rw [Option.not_isSome_iff_eq_none] at hnone
    have hne : front ≠ [] := by
      rintro rfl
      cases hnone
    rw [node?_put hne]
    split
    · next heq => exact .inr ⟨heq ▸ hnone, rfl⟩
    · exact .inl rfl

/-- Making folders replaces nothing. -/
theorem node?_foldl_openFolder (t : FileTree) (ls : List Location) (l : Location) :
    (ls.foldl openFolder t).node? l = t.node? l ∨
      t.node? l = none ∧ (ls.foldl openFolder t).node? l = some .folder := by
  induction ls generalizing t with
  | nil => exact .inl rfl
  | cons front ls ih =>
      rw [List.foldl_cons]
      rcases ih (t.openFolder front) with hrest | ⟨hnone, hrest⟩ <;> rw [hrest]
      · exact node?_openFolder t front l
      · rcases node?_openFolder t front l with hfirst | ⟨hbefore, -⟩
        · exact .inr ⟨hfirst ▸ hnone, rfl⟩
        · exact .inr ⟨hbefore, rfl⟩

/-- What was found is found after folders have been made. -/
theorem find_of_makeFolders (hmake : t.makeFolders l = .ok t') {n : FileNode}
    (hfind : t.find l' = .ok (some n)) : t'.find l' = .ok (some n) := by
  obtain ⟨-, -, rfl⟩ := makeFolders_eq_ok.mp hmake
  obtain ⟨hname, hcheck, hnode⟩ := find_eq_ok.mp hfind
  obtain ⟨hopen, hfolder⟩ := checkFolder_eq_ok.mp hcheck
  have hkept : ∀ {front : Location} {n : FileNode}, t.node? front = some n →
      ((Location.fronts l).foldl openFolder t).node? front = some n := fun {front n} hthere => by
    rcases node?_foldl_openFolder t (Location.fronts l) front with hsame | ⟨hnone, -⟩
    · rw [hsame, hthere]
    · rw [hnone] at hthere
      cases hthere
  refine find_eq_ok.mpr ⟨hname, checkFolder_eq_ok.mpr ⟨fun front content hfront hfile => ?_, hkept hfolder⟩,
    hkept hnode⟩
  rcases node?_foldl_openFolder t (Location.fronts l) front with hsame | ⟨-, hnew⟩
  · exact hopen front content hfront (hsame ▸ hfile)
  · rw [hnew] at hfile
    cases hfile

theorem read_of_makeFolders (hmake : t.makeFolders l = .ok t') {content : Bytes}
    (hread : t.read l' = .ok content) : t'.read l' = .ok content :=
  read_eq_ok.mpr (find_of_makeFolders hmake (read_eq_ok.mp hread))

/-- A file can be put where there is no folder. -/
theorem unlessFolder_eq_ok {found : Except FileError (Option FileNode)} : (do
    match ← found with
    | some .folder => throw FileError.isADirectory
    | _ => pure t) = Except.ok t' ↔ ∃ o, found = .ok o ∧ o ≠ some .folder ∧ t' = t := by
  cases found with
  | error e => simp [bind, Except.bind]
  | ok o =>
      rcases o with _ | (_ | _) <;>
        simp [bind, Except.bind, pure, Except.pure, throw, throwThe, MonadExceptOf.throw, eq_comm]

theorem write_eq_ok {content : Bytes} : t.write l content = .ok t' ↔
    ∃ o, t.find l = .ok o ∧ o ≠ some .folder ∧ t' = t.put l (.file content) :=
  unlessFolder_eq_ok

/-- What is written can be read. -/
theorem read_write {content : Bytes} (hwrite : t.write l content = .ok t') : t'.read l = .ok content := by
  obtain ⟨o, hfind, ho, rfl⟩ := write_eq_ok.mp hwrite
  obtain ⟨hname, hcheck, hnode⟩ := find_eq_ok.mp hfind
  obtain ⟨hopen, hfolder⟩ := checkFolder_eq_ok.mp hcheck
  have hl : l ≠ [] := by
    rintro rfl
    exact ho hnode.symm
  have hbefore : ∀ front, front <+: l.dropLast → (t.put l (.file content)).node? front = t.node? front := by
    intro front hfront
    rw [node?_put hl, if_neg]
    rintro rfl
    have hlength := hfront.length_le
    have hpos := List.length_pos_iff.mpr hl
    rw [List.length_dropLast] at hlength
    omega
  refine read_eq_ok.mpr (find_eq_ok.mpr ⟨hname, checkFolder_eq_ok.mpr ⟨fun front held hfront => ?_, ?_⟩, ?_⟩)
  · rw [hbefore front hfront]
    exact hopen front held hfront
  · rw [hbefore _ (List.prefix_refl _), hfolder]
  · rw [node?_put hl, if_pos rfl]

/-- A file can be put at the location after the folders on the way have been made. -/
def Admits (t : FileTree) (l : Location) : Prop :=
  ∃ made o, t.makeFolders l.dropLast = .ok made ∧ made.find l = .ok o ∧ o ≠ some .folder

theorem admits_of_read {content : Bytes} (hread : t.read l = .ok content) : t.Admits l := by
  have hfind := read_eq_ok.mp hread
  obtain ⟨hname, hcheck, -⟩ := find_eq_ok.mp hfind
  have hfront : isNameable l.dropLast = .ok () := isNameable_eq_ok.mpr fun name hmem =>
    isNameable_eq_ok.mp hname name (List.mem_of_mem_dropLast hmem)
  have hmake := makeFolders_eq_ok.mpr ⟨hfront, (checkFolder_eq_ok.mp hcheck).1, rfl⟩
  exact ⟨_, _, hmake, find_of_makeFolders hmake hfind, by simp⟩

/-- A file that can be read is moved to where no folder is. -/
theorem rename_eq_ok {target : Location} : t.rename l target = .ok t' ↔ ∃ content o,
    t.read l = .ok content ∧ t.find target = .ok o ∧ o ≠ some .folder ∧
      t' = (t.erase l).put target (.file content) := by
  refine bind_eq_ok.trans (exists_congr fun content => ?_)
  rw [exists_and_left]
  exact and_congr_right fun _ => unlessFolder_eq_ok

/-- What is removed is what could be read. -/
theorem remove_eq (t : FileTree) (l : Location) : t.remove l = (t.read l).map fun _ => t.erase l := by
  unfold remove read
  cases t.find l with
  | error e => rfl
  | ok o => rcases o with _ | (_ | _) <;> rfl

namespace WellFormed

theorem of_write (h : WellFormed t) {content : Bytes} (hwrite : t.write l content = .ok t') :
    WellFormed t' ∧ ∀ l', t'.node? l' = if l' = l then some (.file content) else t.node? l' := by
  obtain ⟨o, hfind, ho, rfl⟩ := write_eq_ok.mp hwrite
  obtain ⟨-, hcheck, hnode⟩ := find_eq_ok.mp hfind
  have hl : l ≠ [] := by
    rintro rfl
    exact ho hnode.symm
  exact ⟨h.put hl (checkFolder_eq_ok.mp hcheck).2 fun hfolder => absurd (hnode.symm.trans hfolder) ho,
    node?_put hl _⟩

/-- Writing one file leaves the others readable. -/
theorem read_of_write (h : WellFormed t) {written : Bytes} (hwrite : t.write l written = .ok t')
    (hne : l' ≠ l) {content : Bytes} (hread : t.read l' = .ok content) : t'.read l' = .ok content := by
  obtain ⟨hwell, hnode⟩ := h.of_write hwrite
  exact read_of_same hwell hread ((hnode l').trans (if_neg hne))

theorem of_rename (h : WellFormed t) {target : Location} (hrename : t.rename l target = .ok t') :
    WellFormed t' ∧ ∃ content, t.node? l = some (.file content) ∧ ∀ l', t'.node? l' =
      if l' = target then some (.file content) else if l' = l then none else t.node? l' := by
  obtain ⟨content, o, hread, hfind, ho, rfl⟩ := rename_eq_ok.mp hrename
  obtain ⟨-, -, hfile⟩ := find_eq_ok.mp (read_eq_ok.mp hread)
  obtain ⟨-, hcheck, hnode⟩ := find_eq_ok.mp hfind
  have hl : l ≠ [] := ne_nil_of_file hfile
  have htarget : target ≠ [] := by
    rintro rfl
    exact ho hnode.symm
  have hparent : (t.erase l).node? target.dropLast = some .folder := by
    have hfolder := (checkFolder_eq_ok.mp hcheck).2
    rw [node?_erase hl, if_neg]
    · exact hfolder
    · rintro heq
      rw [heq, hfile] at hfolder
      cases hfolder
  have hkeep : (t.erase l).node? target ≠ some .folder := by
    rw [node?_erase hl]
    split
    · simp
    · rwa [hnode]
  refine ⟨(h.erase hfile).put htarget hparent fun hfolder => absurd hfolder hkeep, content, hfile, ?_⟩
  intro l'
  rw [node?_put htarget, node?_erase hl]

theorem of_remove (h : WellFormed t) (hremove : t.remove l = .ok t') : WellFormed t' ∧
    (∃ content, t.node? l = some (.file content)) ∧
      ∀ l', t'.node? l' = if l' = l then none else t.node? l' := by
  rw [remove_eq] at hremove
  cases hread : t.read l with
  | error e => simp [hread, Except.map] at hremove
  | ok content =>
      rw [hread] at hremove
      cases hremove
      obtain ⟨-, -, hfile⟩ := find_eq_ok.mp (read_eq_ok.mp hread)
      exact ⟨h.erase hfile, ⟨content, hfile⟩, node?_erase (ne_nil_of_file hfile)⟩

end WellFormed

theorem remove_eq_notFound : t.remove l = .error .notFound ↔ t.IsMissing l := by
  rw [remove_eq, ← read_eq_notFound]
  cases t.read l <;> simp [Except.map]

/-! ## Listing a folder -/

/-- The names in a folder as they come. -/
def entries (t : FileTree) (l : Location) : List String :=
  t.nodes.filterMap fun e => if e.1.dropLast = l then e.1.getLast? else none

theorem names_eq_ok {ns : List String} : t.names l = .ok ns ↔ isNameable l = .ok () ∧
    t.checkFolder l = .ok () ∧ ns = (t.entries l).mergeSort (fun a b => a ≤ b) := by
  unfold names
  cases isNameable l <;> cases t.checkFolder l <;>
    simp [bind, Except.bind, pure, Except.pure, entries, eq_comm]

theorem nameIn_eq_some {k l : Location} {name : String} :
    (if k.dropLast = l then k.getLast? else none) = some name ↔ k = l ++ [name] := by
  rcases List.eq_nil_or_concat k with rfl | ⟨init, last, rfl⟩
  · simp
  · rw [List.concat_eq_append, List.dropLast_concat, List.getLast?_concat]
    by_cases hinit : init = l
    · subst hinit
      simp
    · simp [hinit]

theorem mem_entries {name : String} : name ∈ t.entries l ↔ ∃ n, t.node? (l ++ [name]) = some n := by
  have hne : l ++ [name] ≠ [] := by simp
  rw [entries, List.mem_filterMap]
  simp only [nameIn_eq_some, node?, if_neg hne]
  constructor
  · rintro ⟨⟨k, n⟩, hmem, rfl⟩
    cases hlookup : t.nodes.lookup (l ++ [name]) with
    | some n' => exact ⟨n', rfl⟩
    | none => simpa using List.lookup_eq_none_iff.mp hlookup _ hmem
  · rintro ⟨n, hlookup⟩
    obtain ⟨front, rest, hnodes, -⟩ := List.lookup_eq_some_iff.mp hlookup
    exact ⟨(l ++ [name], n), by simp [hnodes], rfl⟩

theorem WellFormed.nodup_entries (h : WellFormed t) (l : Location) : (t.entries l).Nodup := by
  have hentries : t.entries l = (t.nodes.map (·.1)).filterMap fun k =>
      if k.dropLast = l then k.getLast? else none := by
    rw [List.filterMap_map]
    rfl
  rw [hentries]
  refine List.Nodup.filterMap (fun k k' name hk hk' => ?_) h.nodup
  rw [nameIn_eq_some.mp hk, nameIn_eq_some.mp hk']

end FileTree

/-! ## Extensions -/

theorem extension?_eq {name : String} (front ext : List Char) (hname : name.toList = front ++ '.' :: ext)
    (hfront : front ≠ []) (hext : '.' ∉ ext) : extension? name = some (String.ofList ext) := by
  have hreverse : name.toList.reverse = ext.reverse ++ '.' :: front.reverse := by simp [hname]
  have htail : name.toList.reverse.takeWhile (· ≠ '.') = ext.reverse := by
    rw [hreverse, List.takeWhile_append_of_pos fun c hc => ?_]
    · simp
    · have hne : c ≠ '.' := fun heq => hext (by simpa [heq] using hc)
      simpa using hne
  have hrest : name.toList.reverse.drop (ext.reverse.length + 1) = front.reverse := by
    simp [hreverse, List.drop_append]
  simp only [extension?, htail, hrest]
  rw [if_neg (by simpa using hfront), List.reverse_reverse]

/-- An extension stands behind a point that is not the first character. -/
theorem exists_of_extension? {name ext : String} (h : extension? name = some ext) :
    ∃ front, front ≠ [] ∧ name.toList = front ++ '.' :: ext.toList := by
  simp only [extension?, Option.ite_none_left_eq_some, Option.some.injEq] at h
  obtain ⟨hfront, rfl⟩ := h
  have hsplit := List.takeWhile_append_dropWhile (p := fun c => decide (c ≠ '.')) (l := name.toList.reverse)
  generalize htail : name.toList.reverse.takeWhile (fun c => decide (c ≠ '.')) = tail at hsplit hfront ⊢
  cases hdrop : name.toList.reverse.dropWhile (fun c => decide (c ≠ '.')) with
  | nil =>
      rw [hdrop, List.append_nil] at hsplit
      exact absurd (by simp [← hsplit]) hfront
  | cons c rest =>
      have hc : c = '.' := by
        have hhead := List.head?_dropWhile_not (fun c => decide (c ≠ '.')) name.toList.reverse
        rw [hdrop] at hhead
        simpa using hhead
      subst hc
      rw [hdrop] at hsplit
      refine ⟨rest.reverse, fun hnil => hfront ?_, ?_⟩
      · rw [← hsplit, List.reverse_eq_nil_iff.mp hnil]
        simp
      · rw [← List.reverse_reverse name.toList, ← hsplit]
        simp

end EdgeFleet
