import EdgeFleet.Store.Basic

/-! # Replacing one snapshot by the next

A replacement is two batches of store calls: the chunks of old are deleted, then the new ones are
created. Within a batch a limited number of calls is under way at a time, each is tried a limited
number of times with a pause in between, and the calls may finish in any order. What is left in the
store afterwards is remembered by name, to be deleted by the next replacement.
-/

namespace EdgeFleet

/-- How calls to the store are made. -/
structure Effort where
  /-- Calls under way at a time; zero counts as one. -/
  concurrency : Nat
  /-- Tries for each call; zero counts as one. -/
  tries : Nat
  /-- Milliseconds between two tries. -/
  pause : Nat
  deriving DecidableEq

namespace Effort

def width (e : Effort) : Nat := max 1 e.concurrency

def limit (e : Effort) : Nat := max 1 e.tries

end Effort

/-- A call that is under way: how often it has been tried, and when it is tried next. -/
structure Job (α : Type) where
  item : α
  tried : Nat
  due : Nat

/-- A batch of calls, one for each item. -/
structure Batch (σ α : Type) where
  store : σ
  waiting : List α
  running : List (Job α)
  /-- The items whose calls are over, with the success of the call, the latest first. -/
  finished : List (α × Bool)
  /-- Milliseconds since the batch began. -/
  elapsed : Nat

namespace Batch

variable {σ α : Type}

/-- Starts waiting calls as long as there is room for them. -/
def refill (e : Effort) (b : Batch σ α) : Batch σ α :=
  let room := e.width - b.running.length
  { b with
    waiting := b.waiting.drop room
    running := b.running ++ (b.waiting.take room).map fun a => ⟨a, 0, b.elapsed⟩ }

def start (e : Effort) (store : σ) (items : List α) : Batch σ α :=
  refill e ⟨store, items, [], [], 0⟩

/-- Tries the call at position `k` of those under way. -/
def attempt (e : Effort) (call : σ → α → Bool × σ) (b : Batch σ α) (k : Nat) : Batch σ α :=
  match b.running[k]? with
  | none => b
  | some job =>
    let elapsed := max b.elapsed job.due
    let (succeeded, store) := call b.store job.item
    if succeeded ∨ e.limit ≤ job.tried + 1 then
      refill e
        { b with
          store, elapsed
          running := b.running.eraseIdx k
          finished := (job.item, succeeded) :: b.finished }
    else
      { b with
        store, elapsed
        running := b.running.eraseIdx k ++ [⟨job.item, job.tried + 1, elapsed + e.pause⟩] }

/-- The position of the first call that is due earliest. -/
def earliest (b : Batch σ α) : Nat :=
  match b.running.map (·.due) with
  | [] => 0
  | d :: ds => (d :: ds).idxOf (ds.foldl min d)

/-- Tries whatever is due until nothing is under way. -/
def runFor (e : Effort) (call : σ → α → Bool × σ) : (fuel : Nat) → Batch σ α → Batch σ α
  | 0, b => b
  | fuel + 1, b =>
    if b.running.isEmpty then b else runFor e call fuel (b.attempt e call b.earliest)

/-- Runs one call for each item. No call is tried more often than the limit. -/
def run (e : Effort) (call : σ → α → Bool × σ) (store : σ) (items : List α) : Batch σ α :=
  runFor e call (e.limit * items.length) (start e store items)

/-- The items whose calls succeeded, in the order in which they were over. -/
def succeeded (b : Batch σ α) : List α := (b.finished.filter (·.2)).reverse.map (·.1)

def failed (b : Batch σ α) : List α := (b.finished.filter fun r => ¬r.2).reverse.map (·.1)

end Batch

section

variable {σ : Type} [ChunkStore σ]

/-- Deletes a chunk. One that is not there is as good as deleted. -/
def deleteCall (ns : String) (store : σ) (name : String) : Bool × σ :=
  match ChunkStore.delete store ns name with
  | (.ok (), store) | (.error (.notFound _), store) => (true, store)
  | (.error _, store) => (false, store)

def createCall (store : σ) (c : Chunk) : Bool × σ :=
  match ChunkStore.create store c with
  | (.ok (), store) => (true, store)
  | (.error _, store) => (false, store)

/-- The chunks of a generation that holds the given data. -/
def chunksOf (ns : String) (generation max : Nat) (data : Bytes) : List Chunk :=
  let pieces := splitChunks max data
  pieces.zipIdx.map fun p => .make ns generation p.2 pieces.length p.1

/-- What a replacement leads to. -/
structure Replaced (σ : Type) where
  store : σ
  written : Nat
  lost : Nat
  /-- Deletions that failed. -/
  undeleted : Nat
  /-- The names to be deleted by the next replacement. -/
  names : List String
  elapsed : Nat

/-- The outcome of the two batches. -/
def Replaced.of (deletes : Batch σ String) (creates : Batch σ Chunk) : Replaced σ :=
  { store := creates.store
    written := creates.succeeded.length
    lost := creates.failed.length
    undeleted := deletes.failed.length
    names := deletes.failed ++ creates.succeeded.map (·.name)
    elapsed := deletes.elapsed + creates.elapsed }

/-- Deletes the chunks with the given names and creates the given ones. -/
def replaceChunks (e : Effort) (ns : String) (store : σ) (old : List String) (new : List Chunk) :
    Replaced σ :=
  let deletes := Batch.run e (deleteCall ns) store old
  .of deletes (Batch.run e createCall deletes.store new)

end

end EdgeFleet
