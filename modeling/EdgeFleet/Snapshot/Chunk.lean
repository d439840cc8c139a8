import EdgeFleet.Json.Decode
import EdgeFleet.Text.Base64

/-! # Snapshot chunks

A snapshot is stored as a run of chunks. Each chunk carries, as labels, the number of its
generation and how many chunks the generation has; its name joins generation and index.
-/

namespace EdgeFleet

structure Chunk where
  ns : String
  name : String
  labels : KeyMap String
  data : Bytes
  index : UInt64
  deriving DecidableEq

namespace Chunk

def nameOf (generation index : Nat) : String :=
  Decimal.render generation ++ "-" ++ Decimal.render index

/-- The chunk at `index` of the `total` chunks of a generation. -/
def make (ns : String) (generation index total : Nat) (data : Bytes) : Chunk :=
  { ns, name := nameOf generation index, data, index := index.toUInt64
    labels := KeyMap.ofList
      [("identifier", Decimal.render generation), ("summary", "true"),
        ("maxNum", Decimal.render total)] }

/-- A label that is an unsigned numeral of 64 bits. -/
def numericLabel? (c : Chunk) (label : String) : Option Nat :=
  (c.labels.get? label).bind (Decimal.parseBelow? UInt64.size)

def generation? (c : Chunk) : Option Nat := c.numericLabel? "identifier"

def total? (c : Chunk) : Option Nat := c.numericLabel? "maxNum"

/-- Whether the chunk belongs to a snapshot. -/
def isSummary (c : Chunk) : Bool := c.labels.get? "summary" = some "true"

/-! ## Wire form -/

def toJson (c : Chunk) : Json :=
  .record [("namespace", .text c.ns), ("name", .text c.name),
    ("labels", Json.ofMap Json.text c.labels),
    ("data", .text ((text? (Base64.encode c.data)).getD "")), ("index", .nat c.index.toNat)]

def ofJson? (j : Json) : Option Chunk := do
  match ← Json.fields? ["namespace", "name", "labels", "data", "index"] j with
  | [ns, name, labels, data, index] =>
    pure {
      ns := ← Json.required Json.asString? ns
      name := ← Json.required Json.asString? name
      labels := ← Json.required (Json.asMap? Json.asString?) labels
      data := ← Json.required (fun j => j.asString?.bind fun s => Base64.decode? (utf8 s)) data
      index := ← Json.required (fun j => (j.asNatBelow? UInt64.size).map Nat.toUInt64) index }
  | _ => none

def encode (c : Chunk) : Bytes := c.toJson.render

def decode? (payload : Bytes) : Option Chunk := (Json.parse? payload).bind ofJson?

end Chunk

/-- Cuts data into pieces of `max` octets, the last one of what remains; 0 counts as 1. -/
def splitChunks (max : Nat) (data : Bytes) : List Bytes :=
  if h : data = [] then []
  else data.take (max - 1 + 1) :: splitChunks max (data.drop (max - 1 + 1))
termination_by data.length
decreasing_by
  have := List.length_pos_iff.2 h
  simp only [List.length_drop]; omega

end EdgeFleet
