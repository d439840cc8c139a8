import EdgeFleet.Text.Decimal
import EdgeFleet.Text.Hex
import EdgeFleet.Yaml.Cursor

/-! # Scalars in YAML

A scalar is plain, quoted, or a block of indented lines. Line breaks within it are folded: a single one
becomes a space, and of several the first is dropped. A literal block keeps them.
-/

namespace EdgeFleet.Yaml

/-! ## Gaps -/

/-- The blanks and line breaks between two parts of a scalar. -/
structure Gap where
  /-- The blanks of a gap without line breaks. -/
  blanks : List Char
  /-- What the first line break is read as; nothing when it is escaped. -/
  firstBreak : List Char
  moreBreaks : List Char
  isBroken : Bool

namespace Gap

def none : Gap := ⟨[], [], [], false⟩

/-- The gap behind an escaped line break. -/
def spliced : Gap := ⟨[], [], [], true⟩

/-- What a gap is folded to. -/
def text (g : Gap) : List Char :=
  if ¬g.isBroken then g.blanks
  else if g.firstBreak = ['\n'] then (if g.moreBreaks = [] then [' '] else g.moreBreaks)
  else g.firstBreak ++ g.moreBreaks

/-- Reads on in a gap. In the indentation before `indent` there may be no tab. -/
def read? (indent : Nat) : (fuel : Nat) → Gap → Cursor → Option (Gap × Cursor)
  | 0, _, _ => .none
  | fuel + 1, g, c =>
    match c.peek? with
    | some x =>
      if isBlank x then
        if ¬g.isBroken then read? indent fuel { g with blanks := g.blanks ++ [x] } c.step
        else if x = '\t' ∧ c.column < indent then .none
        else read? indent fuel g c.step
      else if isBreak x then
        let (b, c) := c.takeBreak
        if g.isBroken then read? indent fuel { g with moreBreaks := g.moreBreaks ++ b } c
        else read? indent fuel ⟨[], b, [], true⟩ c
      else some (g, c)
    | .none => some (g, c)

end Gap

/-! ## Quoted scalars -/

/-- What a backslash introduces, and the place behind it. -/
def readEscape? (c : Cursor) : Option (Char × Cursor) := do
  let x ← c.peek?
  let c := c.step
  let coded (width : Nat) : Option (Char × Cursor) :=
    (Hex.takeChar? width c.rest).map fun r => (r.1, c.skip width)
  if x = 'x' then coded 2
  else if x = 'u' then coded 4
  else if x = 'U' then coded 8
  else
    ([('0', '\x00'), ('a', '\x07'), ('b', '\x08'), ('t', '\t'), ('\t', '\t'), ('n', '\n'), ('v', '\x0b'),
      ('f', '\x0c'), ('r', '\r'), ('e', '\x1b'), (' ', ' '), ('"', '"'), ('/', '/'), ('\\', '\\'),
      ('N', '\u0085'), ('_', '\u00A0'), ('L', '\u2028'), ('P', '\u2029')].lookup x).map (·, c)

/-- Reads on in a quoted scalar, `text` being what has been read in reverse order. -/
def readQuoted? (quote : Char) : (fuel : Nat) → (text : List Char) → Cursor → Option (List Char × Cursor)
  | 0, _, _ => none
  | fuel + 1, text, c =>
    if c.atMarker then none
    else match c.peek? with
      | none => none
      | some x =>
        if x = quote then
          if quote = '\'' ∧ c.peekAt? 1 = some '\'' then readQuoted? quote fuel (x :: text) (c.skip 2)
          else some (text.reverse, c.step)
        else if x = '\\' ∧ quote = '"' then
          if (c.peekAt? 1).any isBreak then do
            let (gap, c) ← Gap.read? 0 (fuel + 1) .spliced c.step.skipBreak
            readQuoted? quote fuel (gap.text.reverse ++ text) c
          else do
            let (e, c) ← readEscape? c.step
            readQuoted? quote fuel (e :: text) c
        else if isBlank x ∨ isBreak x then do
          let (gap, c) ← Gap.read? 0 (fuel + 1) .none c
          readQuoted? quote fuel (gap.text.reverse ++ text) c
        else readQuoted? quote fuel (x :: text) c.step

/-! ## Plain scalars -/

/-- Whether a character ends a plain scalar: a colon before a gap, and between brackets what structures
them. -/
def endsPlain (inFlow : Bool) (c : Cursor) : Bool :=
  (c.peek? = some ':' ∧ c.gapAt 1) ∨
    (inFlow ∧ c.sees fun x => x ∈ [',', '[', ']', '\x7b', '\x7d'])

/-- Between brackets a colon may not stand right before what structures them. -/
def isStrayColon (inFlow : Bool) (c : Cursor) : Bool :=
  inFlow ∧ c.peek? = some ':' ∧ (c.peekAt? 1).any fun x => x ∈ [',', '?', '[', ']', '\x7b', '\x7d']

/-- Reads on in a plain scalar behind a gap, `text` being what has been read in reverse order. Outside of
brackets it ends before `indent`. Yields also whether the gap at its end goes over lines. -/
def readPlain? (inFlow : Bool) (indent : Nat) :
    (fuel : Nat) → (text : List Char) → Gap → Cursor → Option (List Char × Bool × Cursor)
  | 0, _, _, _ => none
  | fuel + 1, text, gap, c =>
    let hasGap : Bool := gap.isBroken ∨ gap.blanks ≠ []
    let done := some (text, gap.isBroken, c)
    if c.atMarker ∨ (hasGap ∧ c.peek? = some '#') ∨ (gap.isBroken ∧ ¬inFlow ∧ c.column < indent) then done
    else match c.peek? with
      | none => done
      | some x =>
        if isBlank x ∨ isBreak x then
          if hasGap then done
          else do
            let (gap, c) ← Gap.read? indent (fuel + 1) .none c
            readPlain? inFlow indent fuel text gap c
        else if isStrayColon inFlow c then none
        else if endsPlain inFlow c then done
        else readPlain? inFlow indent fuel (x :: (gap.text.reverse ++ text)) .none c.step

/-! ## Blocks -/

/-- What becomes of the line breaks at the end of a block. -/
inductive Chomping where
  | strip | clip | keep
  deriving DecidableEq

/-- The signs behind the bar of a block: what becomes of the line breaks at its end, and its indentation
relative to its surroundings. -/
def readBlockHead? (c : Cursor) : Option (Chomping × Option Nat × Cursor) :=
  let chomping (c : Cursor) : Option Chomping :=
    if c.peek? = some '+' then some .keep else if c.peek? = some '-' then some .strip else none
  let indent (c : Cursor) : Option Nat := (c.peek?.filter Decimal.isDigit).map Decimal.value
  let checked (n : Option Nat) (r : Chomping × Cursor) : Option (Chomping × Option Nat × Cursor) :=
    if n = some 0 then none else some (r.1, n, r.2)
  match chomping c with
  | some k =>
    let c := c.step
    let n := indent c
    checked n (k, if n.isSome then c.step else c)
  | none =>
    let n := indent c
    let c := if n.isSome then c.step else c
    match n.bind fun _ => chomping c with
    | some k => checked n (k, c.step)
    | none => checked n (.clip, c)

/-- Empty lines of a block: what they are read as, the greatest column that was reached, and the place
behind them. No tab may stand in the indentation. -/
def readEmptyLines? (indent : Option Nat) :
    (fuel : Nat) → (breaks : List Char) → (reached : Nat) → Cursor → Option (List Char × Nat × Cursor)
  | 0, _, _, _ => none
  | fuel + 1, breaks, reached, c =>
    let isWithin (c : Cursor) : Bool := indent.all (c.column < ·)
    if isWithin c ∧ c.peek? = some ' ' then readEmptyLines? indent fuel breaks reached c.step
    else
      let reached := max reached c.column
      if isWithin c ∧ c.peek? = some '\t' then none
      else if c.sees isBreak then
        let (b, c) := c.takeBreak
        readEmptyLines? indent fuel (breaks ++ b) reached c
      else some (breaks, reached, c)

/-- Reads on in a block at the beginning of a line, with the line break before it and the empty lines
after that. -/
def readBlockLines? (isLiteral : Bool) (chomping : Chomping) (indent : Nat) :
    (fuel : Nat) → (lastBreak empties : List Char) → (afterBlank : Bool) → Cursor →
      Option (List Char × Cursor)
  | 0, _, _, _, _ => none
  | fuel + 1, lastBreak, empties, afterBlank, c =>
    if c.column = indent ∧ ¬c.isAtEnd then do
      let isBlankLine := c.sees isBlank
      let joint :=
        if ¬isLiteral ∧ lastBreak = ['\n'] ∧ ¬afterBlank ∧ ¬isBlankLine then
          (if empties = [] then [' '] else empties)
        else lastBreak ++ empties
      let (line, c) := c.takeWhile (¬isBreak ·)
      let (lastBreak, c) := c.takeBreak
      let (empties, _, c) ← readEmptyLines? (some indent) (fuel + 1) [] 0 c
      let (text, c) ← readBlockLines? isLiteral chomping indent fuel lastBreak empties isBlankLine c
      some (joint ++ line ++ text, c)
    else
      some ((if chomping = .strip then [] else lastBreak) ++
        (if chomping = .keep then empties else []), c)

/-- Reads a block, the place being behind its bar. `base` is the least column of what it may contain. -/
def readBlock? (isLiteral : Bool) (base : Nat) (c : Cursor) : Option (List Char × Cursor) := do
  let (chomping, relative, c) ← readBlockHead? c
  let c ← c.endLine?
  let given := relative.map fun n => max 1 base - 1 + n
  let (empties, reached, c) ← readEmptyLines? given (c.rest.length + 1) [] 0 c
  let indent := given.getD (max 1 (max base reached))
  readBlockLines? isLiteral chomping indent (c.rest.length + 1) [] empties false c

end EdgeFleet.Yaml
