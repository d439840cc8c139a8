import EdgeFleet.Text.Bytes

/-! # Base64 with the standard alphabet

Only the canonical form is read: groups of four digits, padding in the last group, and no set bits
in the part of the last digit that belongs to no octet.
-/

namespace EdgeFleet.Base64

/-- The digit of a value below 64. -/
def digit (n : Nat) : UInt8 :=
  if n < 26 then (65 + n).toUInt8
  else if n < 52 then (71 + n).toUInt8
  else if n < 62 then (n - 4).toUInt8
  else if n = 62 then octet '+'
  else octet '/'

def value? (b : UInt8) : Option Nat :=
  let n := b.toNat
  if 65 ≤ n ∧ n ≤ 90 then some (n - 65)
  else if 97 ≤ n ∧ n ≤ 122 then some (n - 71)
  else if 48 ≤ n ∧ n ≤ 57 then some (n + 4)
  else if b = octet '+' then some 62
  else if b = octet '/' then some 63
  else none

def encode : Bytes → Bytes
  | [] => []
  | [a] => [digit (a.toNat / 4), digit (a.toNat % 4 * 16), octet '=', octet '=']
  | [a, b] =>
    [digit (a.toNat / 4), digit (a.toNat % 4 * 16 + b.toNat / 16), digit (b.toNat % 16 * 4),
      octet '=']
  | a :: b :: c :: rest =>
    digit (a.toNat / 4) :: digit (a.toNat % 4 * 16 + b.toNat / 16)
      :: digit (b.toNat % 16 * 4 + c.toNat / 64) :: digit (c.toNat % 64) :: encode rest

/-- The last group, which may be padded. -/
def decodeLast? (a b c d : UInt8) : Option Bytes := do
  let w ← value? a
  let x ← value? b
  if c = octet '=' ∧ d = octet '=' then
    guard (x % 16 = 0)
    pure [(w * 4 + x / 16).toUInt8]
  else
    let y ← value? c
    if d = octet '=' then
      guard (y % 4 = 0)
      pure [(w * 4 + x / 16).toUInt8, (x % 16 * 16 + y / 4).toUInt8]
    else
      let z ← value? d
      pure [(w * 4 + x / 16).toUInt8, (x % 16 * 16 + y / 4).toUInt8, (y % 4 * 64 + z).toUInt8]

def decode? : Bytes → Option Bytes
  | [] => some []
  | [a, b, c, d] => decodeLast? a b c d
  | a :: b :: c :: d :: rest =>
    match value? a, value? b, value? c, value? d, decode? rest with
    | some w, some x, some y, some z, some bs =>
      some ((w * 4 + x / 16).toUInt8 :: (x % 16 * 16 + y / 4).toUInt8
        :: (y % 4 * 64 + z).toUInt8 :: bs)
    | _, _, _, _, _ => none
  | _ => none

end EdgeFleet.Base64
