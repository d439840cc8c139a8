/-! # Byte strings and the text they spell -/

namespace EdgeFleet

/-- A sequence of octets. -/
abbrev Bytes := List UInt8

/-- The UTF-8 form of a text. -/
def utf8 (s : String) : Bytes := s.toUTF8.data.toList

/-- The text that `bs` spells in UTF-8, if it spells one. -/
def text? (bs : Bytes) : Option String :=
  String.fromUTF8? ⟨bs.toArray⟩

/-- The octet of an ASCII character. -/
def octet (c : Char) : UInt8 := c.toNat.toUInt8

/-- The octets of an ASCII text given as characters. -/
def ascii (cs : List Char) : Bytes := cs.map octet

/-- A number as octets, the lowest first. -/
def littleEndian (width n : Nat) : Bytes :=
  (List.range width).map fun i => (n >>> (8 * i)).toUInt8

/-- The number that octets spell, the lowest first. -/
def ofLittleEndian (bs : Bytes) : Nat := bs.foldr (fun b n => b.toNat + 256 * n) 0

/-- The first `n` octets and the others. -/
def cut? (n : Nat) (bs : Bytes) : Option (Bytes × Bytes) :=
  let front := bs.take n
  if front.length = n then some (front, bs.drop n) else none

theorem text?_utf8 (s : String) : text? (utf8 s) = some s := by
  have h : (⟨(utf8 s).toArray⟩ : ByteArray) = s.toByteArray := by
    simp [utf8, String.toUTF8]
  rw [text?, h]
  simp [String.fromUTF8?, s.isValidUTF8, String.fromUTF8]

theorem utf8_of_text? {bs : Bytes} {s : String} (h : text? bs = some s) : utf8 s = bs := by
  rw [text?, String.fromUTF8?] at h
  split at h
  · rw [← Option.some.inj h]
    simp [utf8, String.toUTF8, String.fromUTF8]
  · cases h

end EdgeFleet
