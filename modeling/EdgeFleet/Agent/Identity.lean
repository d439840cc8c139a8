import EdgeFleet.Files.Tree
import EdgeFleet.Json.Decode

/-! # What an agent remembers

An agent keeps its identity and a sequence number in a file. Each start counts the number on, so that
no report of an earlier start can be taken for a later one. The new file is written beside the old one
and then takes its place.
-/

namespace EdgeFleet

structure Identity where
  identity : String
  sequence : Nat
  deriving DecidableEq

namespace Identity

def toJson (i : Identity) : Json :=
  .record [("agentIdentity", .text i.identity), ("sequenceNumber", .nat i.sequence)]

def ofJson? (j : Json) : Option Identity := do
  match ← Json.fields? ["agentIdentity", "sequenceNumber"] j with
  | [identity, sequence] =>
    pure ⟨← Json.required Json.asString? identity,
      ← Json.required (Json.asNatBelow? UInt64.size) sequence⟩
  | _ => none

def encode (i : Identity) : Bytes := i.toJson.renderPretty 0

def decode? (bs : Bytes) : Option Identity := (Json.parse? bs).bind ofJson?

/-- The identity of the next start. -/
def next (i : Identity) : Identity := { i with sequence := i.sequence + 1 }

/-- The identity of the first start. -/
def first (fresh : String) : Identity := ⟨fresh, 1⟩

end Identity

/-- Why an agent cannot start. -/
inductive IdentityError where
  | corrupt
  | io (e : FileError)
  deriving DecidableEq

namespace IdentityError

def kind : IdentityError → String
  | corrupt => "Corrupt"
  | io _ => "Io"

def message? : IdentityError → Option String
  | corrupt => none
  | io e => some e.name

end IdentityError

/-- A start: the identity it runs under, and the states that the files pass through. A start that is
broken off leaves one of them, or the files as they were. -/
structure Start where
  identity : Identity
  stages : List FileTree
  deriving DecidableEq

namespace Start

def place (dir : Location) (agent : String) : Location := dir.join (agent ++ ".json")

/-- Where the file is written first: its ending is replaced, but a name that is only an ending is kept
whole. -/
def draft (dir : Location) (agent : String) : Location :=
  let name := if agent.toList.getLast?.all (· = '/') then agent ++ ".json" else agent
  dir.join (name ++ ".json.tmp")

/-- The identity of the next start, from what the file holds. -/
def identity? (fresh : String) : Except FileError Bytes → Except IdentityError Identity
  | .ok bs => match Identity.decode? bs with
    | some i => .ok i.next
    | none => .error .corrupt
  | .error .notFound => .ok (.first fresh)
  | .error e => .error (.io e)

/-- Makes the folder, writes the file beside its place, and puts it in its place. -/
def stages? (dir : Location) (agent : String) (i : Identity) (files : FileTree) :
    Except FileError (List FileTree) := do
  let made ← files.makeFolders dir
  let written ← made.write (draft dir agent) i.encode
  let placed ← written.rename (draft dir agent) (place dir agent)
  pure [made, written, placed]

/-- Starts an agent; `fresh` is its identity if it has none yet. -/
def run (fresh : String) (dir : Location) (agent : String) (files : FileTree) :
    Except IdentityError Start := do
  let i ← identity? fresh (files.read (place dir agent))
  match stages? dir agent i files with
  | .ok stages => pure ⟨i, stages⟩
  | .error e => throw (.io e)

/-- The files when the start is complete. -/
def files (s : Start) : FileTree := s.stages.getLast?.getD .empty

end Start

end EdgeFleet
