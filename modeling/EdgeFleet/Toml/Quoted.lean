import EdgeFleet.Text.Hex

/-! # Quoted text in TOML

Text is quoted in one of four forms: between double quotes, where a backslash introduces an escape, or
between single quotes, where every character stands for itself; and each with one quote at either end
on one line, or with three over several lines. A line break right after three opening quotes does not
count, and one or two quotes may stand before three closing ones.
-/

namespace EdgeFleet.Toml

structure Form where
  quote : Char
  isLong : Bool
  deriving DecidableEq

namespace Form

def basic : Form := ⟨'"', false⟩
def literal : Form := ⟨'\'', false⟩
def longBasic : Form := ⟨'"', true⟩
def longLiteral : Form := ⟨'\'', true⟩

def hasEscapes (f : Form) : Bool := f.quote = '"'

/-- The quotes at either end. -/
def delimiter (f : Form) : List Char := List.replicate (if f.isLong then 3 else 1) f.quote

end Form

/-- Characters that may stand for themselves. -/
def isPlain (c : Char) : Bool := c = '\t' ∨ (' ' ≤ c ∧ c ≠ '\x7f')

def isBlank (c : Char) : Bool := c = ' ' ∨ c = '\t'

/-! ## Reading -/

/-- What follows a line break. -/
def afterBreak? : List Char → Option (List Char)
  | '\n' :: cs => some cs
  | '\r' :: '\n' :: cs => some cs
  | _ => none

theorem afterBreak?_length {cs rest : List Char} (h : afterBreak? cs = some rest) :
    rest.length < cs.length := by
  unfold afterBreak? at h
  split at h <;> cases h <;> simp only [List.length_cons] <;> omega

/-- What follows blanks and line breaks. -/
def skipSpace : List Char → List Char
  | '\n' :: cs => skipSpace cs
  | '\r' :: '\n' :: cs => skipSpace cs
  | c :: cs => if isBlank c then skipSpace cs else c :: cs
  | [] => []

theorem skipSpace_length (cs : List Char) : (skipSpace cs).length ≤ cs.length := by
  fun_induction skipSpace cs <;> simp <;> omega

/-- What a backslash introduces, and what follows. -/
def readEscape? : List Char → Option (Char × List Char)
  | [] => none
  | c :: cs =>
    if c = 'u' then Hex.takeChar? 4 cs
    else if c = 'U' then Hex.takeChar? 8 cs
    else
      ([('b', '\x08'), ('t', '\t'), ('n', '\n'), ('f', '\x0c'), ('r', '\r'), ('"', '"'), ('\\', '\\')].lookup
        c).map (·, cs)

theorem readEscape?_length {cs : List Char} {r : Char × List Char} (h : readEscape? cs = some r) :
    r.2.length < cs.length := by
  match cs with
  | c :: cs =>
    simp only [readEscape?] at h
    repeat' split at h
    · have := Hex.takeChar?_rest h
      simp only [List.length_cons]
      omega
    · have := Hex.takeChar?_rest h
      simp only [List.length_cons]
      omega
    · obtain ⟨e, -, rfl⟩ := Option.map_eq_some_iff.1 h
      simp

/-- What follows a backslash at the end of a line, the line break, and the space after it. -/
def afterSplice? (cs : List Char) : Option (List Char) :=
  (afterBreak? (cs.dropWhile isBlank)).map skipSpace

theorem afterSplice?_length {cs rest : List Char} (h : afterSplice? cs = some rest) :
    rest.length < cs.length := by
  obtain ⟨mid, hm, rfl⟩ := Option.map_eq_some_iff.1 h
  have := afterBreak?_length hm
  have := (List.dropWhile_sublist isBlank (l := cs)).length_le
  have := skipSpace_length mid
  omega

/-- The end of a text in the given form: quotes that still belong to the text, and what follows. -/
def readEnd? (f : Form) (cs : List Char) : Option (List Char × List Char) :=
  if f.delimiter.isPrefixOf cs then
    let rest := cs.drop f.delimiter.length
    let more := if f.isLong then (rest.takeWhile (· = f.quote)).take 2 else []
    some (more, rest.drop more.length)
  else none

/-- What the first characters stand for, and what follows them. -/
def readPiece? (f : Form) : List Char → Option (List Char × List Char)
  | [] => none
  | c :: cs =>
    if c = '\\' ∧ f.hasEscapes then
      match if f.isLong then afterSplice? cs else none with
      | some rest => some ([], rest)
      | none => (readEscape? cs).map fun r => ([r.1], r.2)
    else if isPlain c then some ([c], cs)
    else if f.isLong then (afterBreak? (c :: cs)).map (['\n'], ·)
    else none

theorem readPiece?_length {f : Form} {cs : List Char} {r : List Char × List Char}
    (h : readPiece? f cs = some r) : r.2.length < cs.length := by
  match cs with
  | c :: cs =>
    simp only [readPiece?] at h
    split at h
    · split at h
      · next rest hs =>
        split at hs
        · cases h
          have := afterSplice?_length hs
          simp only [List.length_cons]
          omega
        · cases hs
      · obtain ⟨e, he, rfl⟩ := Option.map_eq_some_iff.1 h
        have := readEscape?_length he
        simp only [List.length_cons]
        omega
    · split at h
      · cases h
        simp
      · split at h
        · obtain ⟨rest, hr, rfl⟩ := Option.map_eq_some_iff.1 h
          exact afterBreak?_length hr
        · cases h

/-- The text up to the end, and what follows it. -/
def readBody? (f : Form) (cs : List Char) : Option (List Char × List Char) :=
  match readEnd? f cs with
  | some r => some r
  | none =>
    match h : readPiece? f cs with
    | none => none
    | some (piece, rest) =>
      have : rest.length < cs.length := readPiece?_length h
      (readBody? f rest).map fun r => (piece ++ r.1, r.2)
termination_by cs.length

/-- The form that a quoted text begins in. -/
def formAt? (cs : List Char) : Option Form :=
  [Form.longBasic, .basic, .longLiteral, .literal].find? fun f => f.delimiter.isPrefixOf cs

/-- A quoted text, and what follows it. -/
def readQuoted? (cs : List Char) : Option (String × List Char) := do
  let f ← formAt? cs
  let body := cs.drop f.delimiter.length
  let body := if f.isLong then (afterBreak? body).getD body else body
  (readBody? f body).map fun r => (String.ofList r.1, r.2)

/-! ## Writing -/

/-- Characters that can only be written with an escape. -/
def isControl (c : Char) : Bool := (c < ' ' ∧ c ≠ '\t' ∧ c ≠ '\n') ∨ c = '\x7f'

/-- The length of the longest run of a character. -/
def longestRun (c : Char) (cs : List Char) : Nat :=
  (cs.foldl (fun (now, best) d => if d = c then (now + 1, max best (now + 1)) else (0, best)) (0, 0)).2

/-- The form in which a text is written: one without escapes where there is one, on one line where that
is possible. -/
def formOf (cs : List Char) : Form :=
  let isBroken := cs.contains '\n'
  let needsEscapes := cs.any isControl
  let hasBackslash := cs.contains '\\'
  let doubles := longestRun '"' cs
  let singles := longestRun '\'' cs
  if ¬needsEscapes ∧ ¬hasBackslash ∧ doubles = 0 ∧ ¬isBroken then .basic
  else if ¬needsEscapes ∧ singles = 0 ∧ ¬isBroken then .literal
  else if ¬needsEscapes ∧ ¬hasBackslash ∧ doubles ≤ 2 then .longBasic
  else if ¬needsEscapes ∧ singles ≤ 2 then .longLiteral
  else if isBroken then .longBasic
  else .basic

/-- The code of a character in four upper-case digits. -/
def hexCode (c : Char) : List Char :=
  [12, 8, 4, 0].map fun shift => (Hex.digit (c.toNat >>> shift % 16)).toUpper

/-- A character other than a double quote, with a backslash if it needs one. -/
def escape (c : Char) : List Char :=
  match [('\x08', 'b'), ('\t', 't'), ('\n', 'n'), ('\x0c', 'f'), ('\r', 'r'), ('\\', '\\')].lookup c with
  | some e => ['\\', e]
  | none => if isControl c then '\\' :: 'u' :: hexCode c else [c]

/-- The text with escapes. In a long form line breaks stand for themselves, and so do double quotes as
long as there are not three of them; `run` is how many there are already. -/
def writeBody (f : Form) (run : Nat) : List Char → List Char
  | [] => []
  | c :: cs =>
    if c = '"' then
      if f.isLong ∧ run < 2 then c :: writeBody f (run + 1) cs else '\\' :: c :: writeBody f 0 cs
    else if c = '\n' ∧ f.isLong then c :: writeBody f 0 cs
    else escape c ++ writeBody f 0 cs

/-- A text in the form that suits it. A long text that has line breaks begins on a line of its own. -/
def quoted (s : String) : List Char :=
  let cs := s.toList
  let f := formOf cs
  f.delimiter ++ (if f.isLong ∧ cs.contains '\n' then ['\n'] else []) ++
    (if f.hasEscapes then writeBody f 0 cs else cs) ++ f.delimiter

end EdgeFleet.Toml
