import EdgeFleet.Text.Bytes

/-! # Hexadecimal digits -/

namespace EdgeFleet.Hex

/-- The lower-case digit of a value below 16. -/
def digit (n : Nat) : Char :=
  if n < 10 then Char.ofNat (48 + n) else Char.ofNat (87 + n)

/-- The value of a digit of either case. -/
def value? (b : UInt8) : Option Nat :=
  let n := b.toNat
  if 48 ≤ n ∧ n ≤ 57 then some (n - 48)
  else if 97 ≤ n ∧ n ≤ 102 then some (n - 87)
  else if 65 ≤ n ∧ n ≤ 70 then some (n - 55)
  else none

/-- Two lower-case digits for each octet. -/
def encode (bs : Bytes) : String :=
  String.ofList (bs.flatMap fun b => [digit (b.toNat / 16), digit (b.toNat % 16)])

/-- Reads pairs of digits; nothing when a digit is missing or is none. -/
def decode? : Bytes → Option Bytes
  | [] => some []
  | [_] => none
  | a :: b :: rest =>
    match value? a, value? b, decode? rest with
    | some x, some y, some bs => some ((16 * x + y).toUInt8 :: bs)
    | _, _, _ => none

/-- The value of a character that is a digit. -/
def charValue? (c : Char) : Option Nat :=
  if c.toNat < 128 then value? (octet c) else none

/-- The number that characters spell, all of them digits; zero when there are none. -/
def ofChars? (cs : List Char) : Option Nat :=
  cs.foldlM (fun n c => (charValue? c).map (16 * n + ·)) 0

/-- The character with a code that is given by `width` digits, and what follows the digits. -/
def takeChar? (width : Nat) (cs : List Char) : Option (Char × List Char) :=
  let ds := cs.take width
  if ds.length = width then
    (ofChars? ds).bind fun n =>
      if n.isValidChar then some (Char.ofNat n, cs.drop width) else none
  else none

theorem takeChar?_rest {width : Nat} {cs : List Char} {r : Char × List Char}
    (h : takeChar? width cs = some r) : r.2.length + width = cs.length := by
  simp only [takeChar?] at h
  split at h
  · next hw =>
    obtain ⟨n, -, hr⟩ := Option.bind_eq_some_iff.1 h
    split at hr
    · cases hr
      simp only [List.length_take] at hw
      simp only [List.length_drop]
      omega
    · cases hr
  · cases h

end EdgeFleet.Hex
