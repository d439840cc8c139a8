import EdgeFleet.Store.Basic

/-! # Chunks in memory

A store that can be told to fail: for a number of calls, or until further notice. It counts the calls.
-/

namespace EdgeFleet

structure MemoryStore where
  /-- Chunks by namespace and name. -/
  chunks : KeyMap (KeyMap Chunk)
  failCreates : Nat
  failDeletes : Nat
  isDown : Bool
  createCalls : Nat
  deleteCalls : Nat
  deriving DecidableEq, Inhabited

namespace MemoryStore

def empty : MemoryStore := ⟨∅, 0, 0, false, 0, 0⟩

/-- The chunks of a namespace by name. -/
def inNamespace (s : MemoryStore) (ns : String) : KeyMap Chunk := (s.chunks.get? ns).getD ∅

/-- Puts a chunk in, over one of its name. -/
def put (s : MemoryStore) (c : Chunk) : MemoryStore :=
  { s with chunks := s.chunks.insert c.ns ((s.inNamespace c.ns).insert c.name c) }

def names (s : MemoryStore) (ns : String) : List String := (s.inNamespace ns).keys

def list (s : MemoryStore) (ns : String) : Except StoreError (List Chunk) :=
  if s.isDown then .error (.unavailable .markedDown) else .ok (s.inNamespace ns).values

def create (s : MemoryStore) (c : Chunk) : Except StoreError Unit × MemoryStore :=
  let s := { s with createCalls := s.createCalls + 1 }
  if s.isDown then (.error (.unavailable .markedDown), s)
  else if 0 < s.failCreates then
    (.error (.unavailable (.injected .create c.name)), { s with failCreates := s.failCreates - 1 })
  else if (s.inNamespace c.ns).contains c.name then (.error (.alreadyExists c.name), s)
  else (.ok (), s.put c)

def delete (s : MemoryStore) (ns name : String) : Except StoreError Unit × MemoryStore :=
  let s := { s with deleteCalls := s.deleteCalls + 1 }
  if s.isDown then (.error (.unavailable .markedDown), s)
  else if 0 < s.failDeletes then
    (.error (.unavailable (.injected .delete name)), { s with failDeletes := s.failDeletes - 1 })
  else if (s.inNamespace ns).contains name then
    (.ok (), { s with chunks := s.chunks.insert ns ((s.inNamespace ns).erase name) })
  else (.error (.notFound name), s)

instance : ChunkStore MemoryStore := ⟨list, create, delete⟩

end MemoryStore

end EdgeFleet
