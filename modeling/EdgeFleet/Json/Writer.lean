import EdgeFleet.Json.Basic
import EdgeFleet.Text.Decimal
import EdgeFleet.Text.Hex

/-! # Writing JSON

Values are written without blanks, or with one member a line and two blanks for each level. In
strings only the quote, the backslash and the control characters are escaped.
-/

namespace EdgeFleet.Json

/-- The octets that stand for one octet of a string. -/
def escapeOctet (b : UInt8) : Bytes :=
  if b = octet '"' then ascii ['\\', '"']
  else if b = octet '\\' then ascii ['\\', '\\']
  else if b = 8 then ascii ['\\', 'b']
  else if b = 9 then ascii ['\\', 't']
  else if b = 10 then ascii ['\\', 'n']
  else if b = 12 then ascii ['\\', 'f']
  else if b = 13 then ascii ['\\', 'r']
  else if b < 32 then
    ascii ['\\', 'u', '0', '0', Hex.digit (b.toNat / 16), Hex.digit (b.toNat % 16)]
  else [b]

/-- A string in quotes; an unreadable one is written as a surrogate without partner. -/
def quote : Option String → Bytes
  | some s => octet '"' :: (utf8 s).flatMap escapeOctet ++ [octet '"']
  | none => ascii ['"', '\\', 'u', 'd', '8', '0', '0', '"']

def renderInt (n : Int) : Bytes :=
  (if n < 0 then [octet '-'] else []) ++ ascii (Decimal.digits n.natAbs)

def renderScalar : Json → Bytes
  | .null => ascii ['n', 'u', 'l', 'l']
  | .bool true => ascii ['t', 'r', 'u', 'e']
  | .bool false => ascii ['f', 'a', 'l', 's', 'e']
  | .int n => renderInt n
  | .real literal => literal
  | .str s => quote s
  | .arr _ => ascii ['[', ']']
  | .obj _ => ascii ['{', '}']

mutual

/-- The value without blanks. -/
def render : Json → Bytes
  | .arr items => octet '[' :: renderItems items ++ [octet ']']
  | .obj members => octet '{' :: renderMembers members ++ [octet '}']
  | j => renderScalar j

def renderItems : List Json → Bytes
  | [] => []
  | [j] => render j
  | j :: rest => render j ++ octet ',' :: renderItems rest

def renderMembers : List (Option String × Json) → Bytes
  | [] => []
  | [(k, j)] => quote k ++ octet ':' :: render j
  | (k, j) :: rest => quote k ++ octet ':' :: render j ++ octet ',' :: renderMembers rest

end

/-- The value without blanks, as text. -/
def renderText (j : Json) : String := (text? (render j)).getD ""

/-- A new line at the given level. -/
def newline (level : Nat) : Bytes := 10 :: List.replicate (2 * level) 32

mutual

/-- The value with one member a line, at the given level. -/
def renderPretty (level : Nat) : Json → Bytes
  | .arr [] => ascii ['[', ']']
  | .obj [] => ascii ['{', '}']
  | .arr items => octet '[' :: prettyItems (level + 1) items ++ newline level ++ [octet ']']
  | .obj members => octet '{' :: prettyMembers (level + 1) members ++ newline level ++ [octet '}']
  | j => renderScalar j

def prettyItems (level : Nat) : List Json → Bytes
  | [] => []
  | [j] => newline level ++ renderPretty level j
  | j :: rest => newline level ++ renderPretty level j ++ octet ',' :: prettyItems level rest

def prettyMembers (level : Nat) : List (Option String × Json) → Bytes
  | [] => []
  | [(k, j)] => newline level ++ quote k ++ ascii [':', ' '] ++ renderPretty level j
  | (k, j) :: rest =>
    newline level ++ quote k ++ ascii [':', ' '] ++ renderPretty level j
      ++ octet ',' :: prettyMembers level rest

end

end EdgeFleet.Json
