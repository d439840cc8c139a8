import EdgeFleet.Json.Number
import EdgeFleet.Text.Hex

/-! # Reading JSON

Reading is two folds: one over the octets that yields tokens, one over the tokens that builds the
value with the open arrays and objects on a stack. Both go from left to right once, so the length
of the input bounds the work and nesting needs no limit.
-/

namespace EdgeFleet.Json

/-! ## Tokens -/

inductive Token where
  | lbracket | rbracket | lbrace | rbrace | comma | colon
  /-- A scalar: `null`, a truth value, a number or a string. -/
  | scalar (j : Json)

/-- What a quoted sequence is made of: octets as they stand, and UTF-16 units given by escapes. -/
inductive Piece where
  | octet (b : UInt8)
  | unit (u : Nat)

/-- The octets of a quoted sequence; nothing when a surrogate has no partner. -/
def Piece.join? : List Piece → Option Bytes
  | [] => some []
  | .octet b :: rest => (join? rest).map (b :: ·)
  | .unit u :: rest =>
    if u < 0xD800 ∨ 0xDFFF < u then
      (join? rest).map (utf8 (String.ofList [Char.ofNat u]) ++ ·)
    else match rest with
      | .unit v :: rest =>
        if u < 0xDC00 ∧ 0xDC00 ≤ v ∧ v ≤ 0xDFFF then
          (join? rest).map
            (utf8 (String.ofList [Char.ofNat (0x10000 + (u - 0xD800) * 0x400 + (v - 0xDC00))]) ++ ·)
        else none
      | _ => none

/-- The string that the pieces spell, if any. -/
def Piece.spell (ps : List Piece) : Option String :=
  (join? ps).bind text?

/-- Where the scan stands. The pieces and octets gathered so far are in reverse order. -/
inductive Scan where
  | between
  | quoted (done : List Piece)
  | escape (done : List Piece)
  | hex (done : List Piece) (count value : Nat)
  | word (done : Bytes)

def isBlank (b : UInt8) : Bool := b = 32 ∨ b = 9 ∨ b = 10 ∨ b = 13

/-- Octets of which unquoted words are made. -/
def isWordOctet (b : UInt8) : Bool :=
  isDigit b ∨ (97 ≤ b ∧ b ≤ 122) ∨ (65 ≤ b ∧ b ≤ 90) ∨ b = octet '+' ∨ b = octet '-' ∨ b = octet '.'

/-- The value of an unquoted word. -/
def readWord? (bs : Bytes) : Option Json :=
  if bs = ascii ['n', 'u', 'l', 'l'] then some .null
  else if bs = ascii ['t', 'r', 'u', 'e'] then some (.bool true)
  else if bs = ascii ['f', 'a', 'l', 's', 'e'] then some (.bool false)
  else readNumber? bs

/-- The octet named by a one-letter escape. -/
def escaped? (b : UInt8) : Option UInt8 :=
  if b = octet '"' ∨ b = octet '\\' ∨ b = octet '/' then some b
  else if b = octet 'b' then some 8
  else if b = octet 'f' then some 12
  else if b = octet 'n' then some 10
  else if b = octet 'r' then some 13
  else if b = octet 't' then some 9
  else none

def punctuation? (b : UInt8) : Option Token :=
  if b = octet '[' then some .lbracket
  else if b = octet ']' then some .rbracket
  else if b = octet '{' then some .lbrace
  else if b = octet '}' then some .rbrace
  else if b = octet ',' then some .comma
  else if b = octet ':' then some .colon
  else none

/-- One octet outside strings and words. -/
def scanBetween (ts : List Token) (b : UInt8) : Option (List Token × Scan) :=
  if isBlank b then some (ts, .between)
  else if b = octet '"' then some (ts, .quoted [])
  else if isWordOctet b then some (ts, .word [b])
  else (punctuation? b).map fun t => (t :: ts, .between)

/-- One octet of the scan; the tokens found so far are in reverse order. -/
def scanStep : List Token × Scan → UInt8 → Option (List Token × Scan)
  | (ts, .between), b => scanBetween ts b
  | (ts, .word done), b =>
    if isWordOctet b then some (ts, .word (b :: done))
    else (readWord? done.reverse).bind fun j => scanBetween (.scalar j :: ts) b
  | (ts, .quoted done), b =>
    if b = octet '"' then some (.scalar (.str (Piece.spell done.reverse)) :: ts, .between)
    else if b = octet '\\' then some (ts, .escape done)
    else if b < 32 then none
    else some (ts, .quoted (.octet b :: done))
  | (ts, .escape done), b =>
    if b = octet 'u' then some (ts, .hex done 0 0)
    else (escaped? b).map fun c => (ts, .quoted (.octet c :: done))
  | (ts, .hex done count value), b =>
    (Hex.value? b).map fun d =>
      let value := 16 * value + d
      if count = 3 then (ts, .quoted (.unit value :: done)) else (ts, .hex done (count + 1) value)

/-- The tokens of an input that ends where a token may end. -/
def tokens? (bs : Bytes) : Option (List Token) :=
  match bs.foldlM scanStep ([], .between) with
  | some (ts, .between) => some ts.reverse
  | some (ts, .word done) => (readWord? done.reverse).map fun j => (Token.scalar j :: ts).reverse
  | _ => none

/-! ## Values -/

/-- An array or object that is still open; what it holds is in reverse order. -/
inductive Frame where
  | items (done : List Json)
  | members (done : List (Option String × Json))
  /-- An object whose last key still waits for its value. -/
  | pair (done : List (Option String × Json)) (key : Option String)

/-- What may come next. -/
inductive Expect where
  | value | valueOrClose | key | keyOrClose | colon | more

inductive Build where
  | running (frames : List Frame) (expect : Expect)
  | complete (j : Json)

/-- Hands a finished value to the innermost open frame. -/
def deliver (j : Json) : List Frame → Option Build
  | [] => some (.complete j)
  | .items done :: fs => some (.running (.items (j :: done) :: fs) .more)
  | .pair done key :: fs => some (.running (.members ((key, j) :: done) :: fs) .more)
  | .members _ :: _ => none

/-- A token where a value is due. -/
def startValue (fs : List Frame) : Token → Option Build
  | .scalar j => deliver j fs
  | .lbracket => some (.running (.items [] :: fs) .valueOrClose)
  | .lbrace => some (.running (.members [] :: fs) .keyOrClose)
  | _ => none

/-- A token where a key is due. -/
def startKey (fs : List Frame) : Token → Option Build
  | .scalar (.str k) => match fs with
    | .members done :: fs => some (.running (.pair done k :: fs) .colon)
    | _ => none
  | _ => none

def buildStep : Build → Token → Option Build
  | .complete _, _ => none
  | .running fs .value, t => startValue fs t
  | .running (.items [] :: fs) .valueOrClose, .rbracket => deliver (.arr []) fs
  | .running fs .valueOrClose, t => startValue fs t
  | .running fs .key, t => startKey fs t
  | .running (.members [] :: fs) .keyOrClose, .rbrace => deliver (.obj []) fs
  | .running fs .keyOrClose, t => startKey fs t
  | .running fs .colon, .colon => some (.running fs .value)
  | .running (.items done :: fs) .more, .comma => some (.running (.items done :: fs) .value)
  | .running (.members done :: fs) .more, .comma => some (.running (.members done :: fs) .key)
  | .running (.items done :: fs) .more, .rbracket => deliver (.arr done.reverse) fs
  | .running (.members done :: fs) .more, .rbrace => deliver (.obj done.reverse) fs
  | _, _ => none

/-- The value spelled by a list of tokens. -/
def build? (ts : List Token) : Option Json :=
  match ts.foldlM buildStep (.running [] .value) with
  | some (.complete j) => some j
  | _ => none

/-- The value that an input spells, with nothing but blanks around it. -/
def parse? (bs : Bytes) : Option Json :=
  (tokens? bs).bind build?

end EdgeFleet.Json
