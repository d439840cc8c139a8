import EdgeFleet.Json.Reader
import EdgeFleet.Json.Writer
import EdgeFleet.Proofs.Text.Numerals
import EdgeFleet.Proofs.Text.Octets
import Mathlib.Data.List.Basic

/-! # The tokens of written JSON

Written octets are scanned back into the tokens they were written from. A number ends only where the
next octet belongs to no word, so the statements speak of a scan that may still hold an open word.
-/

namespace EdgeFleet.Json

/-! ## Scanning in parts -/

/-- The scan has found the tokens `ts`; the last one may be a word that is still open. -/
def Settled (ts : List Token) : List Token × Scan → Prop
  | (found, .between) => found = ts
  | (found, .word done) => ∃ j, readWord? done.reverse = some j ∧ ts = .scalar j :: found
  | _ => False

/-- An octet that is part of no word closes the word before it. -/
theorem Settled.step {ts : List Token} {st : List Token × Scan} (h : Settled ts st) {b : UInt8}
    (hb : isWordOctet b = false) : scanStep st b = scanBetween ts b := by
  obtain ⟨found, scan⟩ := st
  cases scan with
  | between =>
      simp only [Settled] at h
      rw [scanStep, h]
  | word done =>
      obtain ⟨j, hj, rfl⟩ := h
      simp [scanStep, hb, hj]
  | quoted done => exact h.elim
  | escape done => exact h.elim
  | hex done count value => exact h.elim

/-- The octets are scanned into the tokens, whatever came before them. -/
def Scans (bs : Bytes) (ts : List Token) : Prop :=
  ∀ before, ∃ st, bs.foldlM scanStep (before, .between) = some st ∧ Settled (ts.reverse ++ before) st

theorem scans_nil : Scans [] [] := fun before => ⟨(before, .between), rfl, rfl⟩

/-- Two parts with a punctuation mark between them. -/
theorem Scans.append {bs bs' : Bytes} {ts ts' : List Token} (h : Scans bs ts) {b : UInt8} {t : Token}
    (hb : isBlank b = false ∧ b ≠ octet '"' ∧ isWordOctet b = false)
    (ht : punctuation? b = some t) (h' : Scans bs' ts') :
    Scans (bs ++ b :: bs') (ts ++ t :: ts') := by
  intro before
  obtain ⟨st, hst, hsettled⟩ := h before
  obtain ⟨st', hst', hsettled'⟩ := h' (t :: (ts.reverse ++ before))
  have hstep : scanStep st b = some (t :: (ts.reverse ++ before), .between) := by
    rw [hsettled.step hb.2.2, scanBetween]
    simp [hb, ht]
  refine ⟨st', ?_, ?_⟩
  · rw [List.foldlM_append, hst]
    simp [hstep, hst']
  · simpa using hsettled'

/-! ## Scalars -/

/-- What the scan makes of one octet of a written string. -/
def pieceOf (b : UInt8) : Piece :=
  if b < 32 ∧ b ≠ 8 ∧ b ≠ 9 ∧ b ≠ 10 ∧ b ≠ 12 ∧ b ≠ 13 then .unit b.toNat else .octet b

theorem scanStep_hex (ts : List Token) (done : List Piece) (count value : Nat) {b : UInt8} {d : Nat}
    (h : Hex.value? b = some d) :
    scanStep (ts, .hex done count value) b =
      some (if count = 3 then (ts, .quoted (.unit (16 * value + d) :: done))
        else (ts, .hex done (count + 1) (16 * value + d))) := by
  simp [scanStep, h]

/-- Four digits after `\\u` give a unit. -/
theorem scan_unit (ts : List Token) (done : List Piece) {n : Nat} (h : n < 32) :
    (ascii ['\\', 'u', '0', '0', Hex.digit (n / 16), Hex.digit (n % 16)]).foldlM scanStep
      (ts, .quoted done) = some (ts, .quoted (.unit n :: done)) := by
  have hzero : Hex.value? (octet '0') = some 0 := rfl
  have hhigh := Hex.value?_digit (n := n / 16) (by omega)
  have hlow := Hex.value?_digit (n := n % 16) (by omega)
  have hvalue : 16 * (n / 16) + n % 16 = n := by omega
  have hbackslash : scanStep (ts, .quoted done) (octet '\\') = some (ts, .escape done) := rfl
  have hu : scanStep (ts, .escape done) (octet 'u') = some (ts, .hex done 0 0) := rfl
  simp [ascii, hbackslash, hu, scanStep_hex ts done _ _ hzero, scanStep_hex ts done _ _ hhigh,
    scanStep_hex ts done _ _ hlow, hvalue]

theorem scan_escapeOctet (ts : List Token) (done : List Piece) (b : UInt8) :
    (escapeOctet b).foldlM scanStep (ts, .quoted done) = some (ts, .quoted (pieceOf b :: done)) := by
  by_cases hquote : b = octet '"'
  · subst hquote
    rfl
  by_cases hbackslash : b = octet '\\'
  · subst hbackslash
    rfl
  by_cases hnamed : b = 8 ∨ b = 9 ∨ b = 10 ∨ b = 12 ∨ b = 13
  · rcases hnamed with rfl | rfl | rfl | rfl | rfl <;> rfl
  simp only [not_or] at hnamed
  by_cases hcontrol : b < 32
  · have hescaped : escapeOctet b =
        ascii ['\\', 'u', '0', '0', Hex.digit (b.toNat / 16), Hex.digit (b.toNat % 16)] := by
      simp [escapeOctet, hquote, hbackslash, hnamed, hcontrol]
    rw [hescaped, scan_unit ts done (UInt8.lt_iff_toNat_lt.mp hcontrol)]
    simp [pieceOf, hnamed, hcontrol]
  · simp [escapeOctet, hquote, hbackslash, hnamed, hcontrol, pieceOf, scanStep]

theorem scan_escaped (ts : List Token) (done : List Piece) (bs : Bytes) :
    (bs.flatMap escapeOctet).foldlM scanStep (ts, .quoted done) =
      some (ts, .quoted ((bs.map pieceOf).reverse ++ done)) := by
  induction bs generalizing done with
  | nil => rfl
  | cons b bs ih =>
      rw [List.flatMap_cons, List.foldlM_append, scan_escapeOctet]
      simp [ih]

theorem join?_unit {u : Nat} (h : u < 0xD800) (ps : List Piece) :
    Piece.join? (.unit u :: ps) =
      (Piece.join? ps).map (utf8 (String.ofList [Char.ofNat u]) ++ ·) := by
  rw [Piece.join?.eq_def]
  simp [h]

theorem join?_map_pieceOf (bs : Bytes) : Piece.join? (bs.map pieceOf) = some bs := by
  induction bs with
  | nil => rfl
  | cons b bs ih =>
      rw [List.map_cons, pieceOf]
      split
      · next hb =>
        have hlt : b.toNat < 32 := UInt8.lt_iff_toNat_lt.mp hb.1
        rw [join?_unit (by omega), ih, utf8_ofNat (by omega)]
        simp
      · rw [Piece.join?, ih]
        rfl

theorem scans_quote (s : String) : Scans (quote (some s)) [.scalar (text s)] := by
  intro before
  refine ⟨(.scalar (text s) :: before, .between), ?_, rfl⟩
  have hspell : Piece.spell ((utf8 s).map pieceOf) = some s := by
    rw [Piece.spell, join?_map_pieceOf, Option.bind_some, text?_utf8]
  have hopen : scanStep (before, .between) (octet '"') = some (before, .quoted []) := rfl
  rw [quote, List.cons_append, List.foldlM_cons, hopen, Option.bind_eq_bind, Option.bind_some,
    List.foldlM_append, scan_escaped]
  simp [scanStep, hspell]

theorem isWordOctet_of_blank {b : UInt8} (h : isBlank b = true ∨ b = octet '"') :
    isWordOctet b = false := by
  simp only [isBlank, decide_eq_true_eq] at h
  rcases h with (rfl | rfl | rfl | rfl) | rfl <;> rfl

/-- A word is scanned as one token. -/
theorem scans_word {bs : Bytes} {j : Json} (hne : bs ≠ []) (hword : bs.all isWordOctet = true)
    (hread : readWord? bs = some j) : Scans bs [.scalar j] := by
  have hgo : ∀ (bs done : Bytes) (before : List Token), bs.all isWordOctet = true →
      bs.foldlM scanStep (before, .word done) = some (before, .word (bs.reverse ++ done)) := by
    intro bs
    induction bs with
    | nil => intro done before _; rfl
    | cons b bs ih =>
        intro done before hall
        rw [List.all_cons, Bool.and_eq_true] at hall
        simp [scanStep, hall.1, ih _ _ hall.2]
  intro before
  cases bs with
  | nil => exact absurd rfl hne
  | cons b bs =>
      have hb : isWordOctet b = true := by
        rw [List.all_cons, Bool.and_eq_true] at hword
        exact hword.1
      have hrest : bs.all isWordOctet = true := by
        rw [List.all_cons, Bool.and_eq_true] at hword
        exact hword.2
      have hblank : ¬(isBlank b = true ∨ b = octet '"') := by
        intro h
        rw [isWordOctet_of_blank h] at hb
        cases hb
      rw [not_or, Bool.not_eq_true] at hblank
      have hopen : scanStep (before, .between) b = some (before, .word [b]) := by
        simp [scanStep, scanBetween, hblank, hb]
      refine ⟨(before, .word (bs.reverse ++ [b])), ?_, j, ?_, rfl⟩
      · rw [List.foldlM_cons, hopen]
        exact hgo bs [b] before hrest
      · simpa using hread

end EdgeFleet.Json
