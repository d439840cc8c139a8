import EdgeFleet.Files.Tree
import EdgeFleet.Snapshot.Chunk

/-! # Stores for chunks

A store keeps chunks by namespace and name. It never replaces a chunk, and every call may fail.
-/

namespace EdgeFleet

inductive StoreOperation where
  | create | delete
  deriving DecidableEq

def StoreOperation.name : StoreOperation → String
  | create => "create"
  | delete => "delete"

/-- Why a store cannot be used. -/
inductive Outage where
  /-- Its root is no folder and cannot be made one. -/
  | root (e : FileError)
  | markedDown
  /-- A failure that was asked for. -/
  | injected (operation : StoreOperation) (name : String)
  deriving DecidableEq

namespace Outage

/-- What is said of an outage. The root's place is not told. -/
def message? : Outage → Option String
  | root _ => none
  | markedDown => some "memory store marked down"
  | injected operation name => some ("injected " ++ operation.name ++ " failure for " ++ name)

end Outage

/-- Why a call to a store fails. -/
inductive StoreError where
  | notFound (name : String)
  | alreadyExists (name : String)
  | unavailable (outage : Outage)
  | io (e : FileError)
  deriving DecidableEq

namespace StoreError

def kind : StoreError → String
  | notFound _ => "NotFound"
  | alreadyExists _ => "AlreadyExists"
  | unavailable _ => "Unavailable"
  | io _ => "Io"

def message? : StoreError → Option String
  | notFound name => some ("chunk not found: " ++ name)
  | alreadyExists name => some ("chunk already exists: " ++ name)
  | unavailable outage => outage.message?.map ("store unavailable: " ++ ·)
  | io e => some e.name

end StoreError

/-- States `σ` of a store. Listing changes nothing; the other calls may leave a trace even when they
fail. -/
class ChunkStore (σ : Type) where
  list : σ → String → Except StoreError (List Chunk)
  create : σ → Chunk → Except StoreError Unit × σ
  delete : σ → (ns name : String) → Except StoreError Unit × σ

/-! ## One of two stores -/

section

variable {σ τ : Type} [ChunkStore σ] [ChunkStore τ]

/-- A store that is one of two kinds behaves as that one. -/
instance : ChunkStore (σ ⊕ τ) where
  list
    | .inl s => ChunkStore.list s
    | .inr t => ChunkStore.list t
  create
    | .inl s, c => (ChunkStore.create s c).map id .inl
    | .inr t, c => (ChunkStore.create t c).map id .inr
  delete
    | .inl s, ns, name => (ChunkStore.delete s ns name).map id .inl
    | .inr t, ns, name => (ChunkStore.delete t ns name).map id .inr

end

end EdgeFleet
