import EdgeFleet.Text.Bytes

/-! # Media types

A media type names what the body of a message is made of: a type and a subtype with a slash between
them, then parameters, each behind a semicolon. The subtype may end with the form that it is written in,
behind a plus sign.
-/

namespace EdgeFleet.Api

def lower (b : UInt8) : UInt8 := if 65 ≤ b ∧ b ≤ 90 then b + 32 else b

/-- Whether a header's value can be read as text. -/
def isReadable (value : Bytes) : Bool := value.all fun b => (32 ≤ b ∧ b < 127) ∨ b = 9

/-- Octets of which names are made. -/
def isTokenOctet (b : UInt8) : Bool :=
  (48 ≤ b ∧ b ≤ 57) ∨ (65 ≤ b ∧ b ≤ 90) ∨ (97 ≤ b ∧ b ≤ 122) ∨
    [33, 35, 36, 37, 38, 39, 42, 43, 45, 46, 94, 95, 96, 124, 126].contains b

/-! ## Parameters -/

/-- How far the reading of the parameters has come. -/
inductive ParameterState where
  /-- Before a name, or at the end. -/
  | start
  | name
  /-- Behind the equals sign. -/
  | equals
  | value
  /-- Behind an opening quote. -/
  | opened
  | quoted
  /-- Behind a closing quote. -/
  | closed
  deriving DecidableEq

namespace ParameterState

/-- Takes one more octet. Values in quotes are not empty, and blanks may follow them. -/
def step : ParameterState → UInt8 → Option ParameterState
  | start, b => if b = 32 then some start else if isTokenOctet b then some name else none
  | name, b => if b = 61 then some equals else if isTokenOctet b then some name else none
  | equals, b => if b = 34 then some opened else if isTokenOctet b then some value else none
  | value, b => if b = 59 then some start else if isTokenOctet b then some value else none
  | opened, b => if 32 ≤ b ∧ b ≠ 127 then some quoted else none
  | quoted, b => if b = 34 then some closed else if 32 ≤ b ∧ b ≠ 127 then some quoted else none
  | closed, b => if b = 59 then some start else if b = 32 then some closed else none

/-- Whether the parameters may end here. -/
def isFinal : ParameterState → Bool
  | start | equals | value | closed => true
  | name | opened | quoted => false

end ParameterState

/-- Whether octets spell parameters. -/
def areParameters (bs : Bytes) : Bool :=
  (bs.foldlM ParameterState.step .start).any ParameterState.isFinal

/-! ## Types -/

structure MediaType where
  type : Bytes
  subtype : Bytes
  /-- What stands behind the last plus sign of the subtype. -/
  suffix : Option Bytes
  deriving DecidableEq

namespace MediaType

/-- Takes a subtype apart at its last plus sign, unless it begins with that. -/
def splitSubtype (bs : Bytes) : Bytes × Option Bytes :=
  let behind := (bs.reverse.takeWhile (· ≠ 43)).reverse
  let before := bs.take (bs.length - behind.length - 1)
  if before = [] then (bs, none) else (before, some behind)

/-- Reads a media type. Letters count as small ones. -/
def read? (value : Bytes) : Option MediaType := do
  let value := value.map lower
  let (type, rest) := value.span isTokenOctet
  let rest ← match rest with
    | 47 :: rest => some rest
    | _ => none
  let (subtype, rest) := rest.span isTokenOctet
  guard (type ≠ [] ∧ (rest = [] ∨ subtype ≠ []))
  match rest with
  | [] => pure ()
  | b :: parameters => guard (b = 59 ∧ areParameters parameters)
  let (subtype, suffix) := splitSubtype subtype
  pure ⟨type, subtype, suffix⟩

/-- A body of this type is JSON, or another format that is written in it. -/
def isJson (m : MediaType) : Bool :=
  m.type = utf8 "application" ∧ (m.subtype = utf8 "json" ∨ m.suffix = some (utf8 "json"))

end MediaType

/-- Whether the value of a header names JSON. -/
def isJsonType (value : Bytes) : Bool := isReadable value && (MediaType.read? value).any MediaType.isJson

end EdgeFleet.Api
