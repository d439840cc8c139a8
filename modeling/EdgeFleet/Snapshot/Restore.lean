import EdgeFleet.Codec
import EdgeFleet.Fleet.Registry
import EdgeFleet.Store.Basic

/-! # Reading a snapshot back

Of the generations whose chunks are in the store, the newest one counts that is complete and can be
read. Chunks that belong to no generation are only remembered by name.
-/

namespace EdgeFleet

/-- What is known after a store has been read. -/
structure Restored where
  agents : AgentMap
  /-- The generation that was read; none when the fleet starts anew. -/
  generation : Option Nat
  /-- The names of all chunks of the namespace. -/
  names : List String
  nextGeneration : Nat
  deriving DecidableEq

/-- The generation that a chunk is part of. -/
def Chunk.partOf? (c : Chunk) : Option Nat := if c.isSummary then c.generation? else none

namespace Restored

/-- The numbers of the generations that have chunks, the greatest first. -/
def generations (cs : List Chunk) : List Nat :=
  ((cs.filterMap Chunk.partOf?).eraseDups).mergeSort fun a b => b ≤ a

/-- The chunks of a generation in the order of their indices. -/
def chunksIn (cs : List Chunk) (generation : Nat) : List Chunk :=
  (cs.filter fun c => c.partOf? = some generation).mergeSort fun a b => a.index ≤ b.index

/-- The indices run from zero without a gap, and every chunk tells how many there are. -/
def isComplete (cs : List Chunk) : Bool :=
  (cs.head?.bind Chunk.total?) = some cs.length ∧
    cs.zipIdx.all fun c => c.1.index.toNat = c.2 ∧ c.1.total? = some cs.length

/-- The agents that the chunks of one generation describe. -/
def readAgents? (codec : Codec) (cs : List Chunk) : Option AgentMap := do
  guard (isComplete cs)
  let data ← codec.decompress? (cs.flatMap (·.data))
  AgentMap.decode? data

/-- The newest generation that can be read. -/
def newest? (codec : Codec) (cs : List Chunk) : Option (Nat × AgentMap) :=
  (generations cs).findSome? fun g => (readAgents? codec (chunksIn cs g)).map (g, ·)

def ofChunks (codec : Codec) (cs : List Chunk) : Restored :=
  let read := newest? codec cs
  { agents := (read.map (·.2)).getD ∅
    generation := read.map (·.1)
    names := cs.map (·.name)
    nextGeneration := ((generations cs).head?.map (· + 1)).getD 0 }

end Restored

/-- Reads a namespace of a store. -/
def restore {σ : Type} [ChunkStore σ] (store : σ) (ns : String) (codec : Codec) :
    Except StoreError Restored :=
  (ChunkStore.list store ns).map (Restored.ofChunks codec)

end EdgeFleet
