import EdgeFleet.Api.MediaType
import EdgeFleet.Json.Basic
import EdgeFleet.Text.Hex

/-! # Requests and responses

What the controller's interface needs to know of HTTP: the method, the segments of a path, the headers
and the body.
-/

namespace EdgeFleet.Api

inductive Method where
  | get | head | put | delete
  | other (name : String)
  deriving DecidableEq

namespace Method

def name : Method → String
  | get => "GET"
  | head => "HEAD"
  | put => "PUT"
  | delete => "DELETE"
  | other name => name

def ofName (s : String) : Method :=
  ([get, head, put, delete].find? fun m => m.name = s).getD (other s)

end Method

structure Request where
  method : Method
  /-- The path with its query. -/
  target : String
  headers : List (String × Bytes)
  body : Bytes

inductive Body where
  | empty
  | text (s : String)
  | json (j : Json)

structure Response where
  status : Nat
  /-- The methods that the path allows, told when the request's method is none of them. -/
  allow : Option String
  body : Body

namespace Response

/-- A response that has nothing but a status. -/
def bare (status : Nat) : Response := ⟨status, none, .empty⟩

def text (status : Nat) (s : String) : Response := ⟨status, none, .text s⟩

def ok (j : Json) : Response := ⟨200, none, .json j⟩

/-- The response to a request that wants no body. -/
def withoutBody (r : Response) : Response := { r with body := .empty }

end Response

/-! ## Paths -/

/-- The parts of a path between its slashes, without the query. -/
def segments (target : String) : List String :=
  let path := target.toList.takeWhile fun c => c ≠ '?' ∧ c ≠ '#'
  (path.foldr (fun c parts =>
    if c = '/' then [] :: parts
    else match parts with
      | [] => [[c]]
      | part :: parts => (c :: part) :: parts) [[]]).map String.ofList

/-- The octets that a segment stands for. A percent sign that no two digits follow stands for
itself. -/
def percentDecode : Bytes → Bytes
  | 37 :: a :: b :: rest =>
    match Hex.value? a, Hex.value? b with
    | some x, some y => (16 * x + y).toUInt8 :: percentDecode rest
    | _, _ => 37 :: percentDecode (a :: b :: rest)
  | x :: rest => x :: percentDecode rest
  | [] => []
termination_by bs => bs.length

/-- The text of a segment, if it spells text. -/
def segmentText? (segment : String) : Option String := text? (percentDecode (utf8 segment))

/-! ## Headers -/

/-- The value of the first header of a name, which is given in lower case. -/
def Request.header? (r : Request) (name : String) : Option Bytes :=
  (r.headers.find? fun h => (utf8 h.1).map lower = utf8 name).map (·.2)

end EdgeFleet.Api
