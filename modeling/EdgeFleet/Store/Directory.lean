import EdgeFleet.Store.Basic

/-! # Chunks in files

Each namespace is a folder below the root, and each chunk a file in it that holds the chunk's JSON
form. A chunk is written under another name first, so that it is never seen half written. Files that
hold no chunk count as missing.
-/

namespace EdgeFleet

structure DirectoryStore where
  root : Location
  files : FileTree

namespace DirectoryStore

/-- Opens the store at a root and makes the root if needed. -/
def openAt (root : Location) (files : FileTree) : Except StoreError DirectoryStore :=
  match files.makeFolders root with
  | .ok files => .ok ⟨root, files⟩
  | .error e => .error (.unavailable (.root e))

/-- Where the chunks of a namespace are. -/
def folder (s : DirectoryStore) (ns : String) : Location := s.root.join ns

def place (s : DirectoryStore) (ns name : String) : Location := (s.folder ns).join (name ++ ".json")

/-- Where a chunk is written before it gets its name. -/
def draft (s : DirectoryStore) (ns name : String) : Location :=
  (s.folder ns).join (name ++ ".json.tmp")

/-- Writes a chunk whose folder is there. -/
def createIn (s : DirectoryStore) (c : Chunk) : Except StoreError Unit × DirectoryStore :=
  match s.files.exist (s.place c.ns c.name) with
  | .error e => (.error (.io e), s)
  | .ok true => (.error (.alreadyExists c.name), s)
  | .ok false =>
    match s.files.write (s.draft c.ns c.name) c.encode with
    | .error e => (.error (.io e), s)
    | .ok files =>
      match files.rename (s.draft c.ns c.name) (s.place c.ns c.name) with
      | .error e => (.error (.io e), { s with files })
      | .ok files => (.ok (), { s with files })

def create (s : DirectoryStore) (c : Chunk) : Except StoreError Unit × DirectoryStore :=
  match s.files.makeFolders (s.folder c.ns) with
  | .error e => (.error (.io e), s)
  | .ok files => createIn { s with files } c

def delete (s : DirectoryStore) (ns name : String) : Except StoreError Unit × DirectoryStore :=
  match s.files.remove (s.place ns name) with
  | .ok files => (.ok (), { s with files })
  | .error .notFound => (.error (.notFound name), s)
  | .error e => (.error (.io e), s)

/-- The chunk in a file, if there is one in it. -/
def chunkAt (s : DirectoryStore) (l : Location) : Except FileError (Option Chunk) :=
  (s.files.read l).map Chunk.decode?

def chunks (s : DirectoryStore) (ns : String) : Except FileError (List Chunk) := do
  let names ← s.files.names (s.folder ns)
  let found ← (names.filter fun n => extension? n = some "json").mapM fun n =>
    s.chunkAt (s.folder ns ++ [n])
  pure (found.filterMap id)

/-- A namespace without a folder is empty. -/
def list (s : DirectoryStore) (ns : String) : Except StoreError (List Chunk) :=
  match s.chunks ns with
  | .ok cs => .ok cs
  | .error .notFound => .ok []
  | .error e => .error (.io e)

instance : ChunkStore DirectoryStore := ⟨list, create, delete⟩

end DirectoryStore

end EdgeFleet
