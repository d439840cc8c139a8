import EdgeFleet.Text.Bytes
import EdgeFleet.Yaml.Scalar

/-! # The tokens of a YAML text

Blocks open where the indentation grows and close where it shrinks. A scalar turns out to be a key only
when a colon follows it; the tokens before it are then put in at the place where it may have begun. Such
a key stands on one line and is not too long.
-/

namespace EdgeFleet.Yaml

/-- How a scalar is written, as far as its meaning depends on it. -/
inductive Style where
  | plain | literal | other
  deriving DecidableEq

inductive Token where
  | version (major minor : Nat)
  /-- A handle stands for the beginning of tags. -/
  | tagHandle (handle front : String)
  | documentStart
  | documentEnd
  | blockSequence
  | blockMapping
  | blockEnd
  | flowSequence
  | flowSequenceEnd
  | flowMapping
  | flowMappingEnd
  | entry
  | comma
  | key
  | value
  | alias (name : String)
  | anchor (name : String)
  | tag (handle rest : String)
  | scalar (style : Style) (text : String)
  deriving DecidableEq

/-! ## Tags and directives -/

/-- Characters of tags; some only where the tag is enclosed or its handle is defined. -/
def isTagChar (isOpen : Bool) (c : Char) : Bool :=
  isNameChar c ∨ c ∈ [';', '/', '?', ':', '@', '&', '=', '+', '$', '.', '%', '!', '~', '*', '\'', '(', ')'] ∨
    (isOpen ∧ c ∈ [',', '[', ']'])

/-- The octets that a part of a tag stands for: a percent sign introduces one in two digits. -/
def tagOctets? : List Char → Option Bytes
  | [] => some []
  | '%' :: a :: b :: cs => do
    let x ← Hex.charValue? a
    let y ← Hex.charValue? b
    (tagOctets? cs).map ((16 * x + y).toUInt8 :: ·)
  | '%' :: _ => none
  | c :: cs => (tagOctets? cs).map (utf8 (String.singleton c) ++ ·)

/-- A part of a tag, and the place behind it. -/
def readTagPart? (isOpen : Bool) (c : Cursor) : Option (String × Cursor) :=
  let (cs, c) := c.takeWhile (isTagChar isOpen)
  ((tagOctets? cs).bind text?).map (·, c)

/-- An exclamation mark with a name behind it and, if there is one, the exclamation mark behind that. -/
def takeHandle (c : Cursor) : String × Cursor :=
  let (name, c) := c.step.takeWhile isNameChar
  if c.peek? = some '!' then (String.ofList ('!' :: name ++ ['!']), c.step)
  else (String.ofList ('!' :: name), c)

def isHandle (s : String) : Bool := s.length > 1 ∧ s.toList.getLast? = some '!'

/-- A tag: enclosed, with a handle, or behind a lone exclamation mark, which is itself a tag when nothing
follows it. -/
def readTag? (inFlow : Bool) (c : Cursor) : Option (Token × Cursor) := do
  let (token, c) ←
    if c.peekAt? 1 = some '<' then do
      let (tag, c) ← readTagPart? true (c.skip 2)
      if tag = "" ∨ c.peek? ≠ some '>' then none else some (Token.tag "" tag, c.step)
    else
      let (handle, behind) := takeHandle c
      if isHandle handle then do
        let (rest, c) ← readTagPart? false behind
        if rest = "" then none else some (Token.tag handle rest, c)
      else do
        let (rest, c) ← readTagPart? false c.step
        some (if rest = "" then Token.tag "" "!" else .tag "!" rest, c)
  if c.gapAt 0 ∨ (inFlow ∧ c.peek? = some ',') then some (token, c) else none

/-- A number of a version. -/
def readVersionNumber? (c : Cursor) : Option (Nat × Cursor) :=
  let (ds, c) := c.takeWhile Decimal.isDigit
  if ds = [] ∨ ds.length > 9 then none else some (Decimal.ofDigits ds, c)

/-- A line that begins with a percent sign. -/
def readDirective? (c : Cursor) : Option (Token × Cursor) := do
  let (name, c) := c.step.takeWhile isNameChar
  if ¬c.gapAt 0 then none
  let c := c.skipWhile isBlank
  if name = "YAML".toList then
    let (major, c) ← readVersionNumber? c
    if c.peek? ≠ some '.' then none
    let (minor, c) ← readVersionNumber? c.step
    (c.endLine?).map (.version major minor, ·)
  else if name = "TAG".toList then
    if c.peek? ≠ some '!' then none
    let (handle, c) := takeHandle c
    if ¬(isHandle handle ∨ handle = "!") ∨ ¬c.sees isBlank then none
    let (front, c) ← readTagPart? true (c.skipWhile isBlank)
    if front = "" ∨ ¬c.gapAt 0 then none
    (c.endLine?).map (.tagHandle handle front, ·)
  else none

/-- A name behind an ampersand or an asterisk. -/
def readName? (c : Cursor) : Option (String × Cursor) :=
  let (name, c) := c.step.takeWhile isNameChar
  if name ≠ [] ∧ (c.gapAt 0 ∨ c.sees fun x => x ∈ ['?', ':', ',', ']', '\x7d', '%', '@', '\u0060']) then
    some (String.ofList name, c)
  else none

/-! ## Scanning -/

/-- Where a key may have begun: its first token would be the one with the given number. -/
structure PossibleKey where
  /-- Whether nothing but a key may stand there. -/
  isRequired : Bool
  number : Nat
  place : Cursor

structure Scanner where
  place : Cursor
  tokens : Array Token
  /-- One more than the column of the innermost block, zero outside of blocks. -/
  level : Nat
  /-- The levels of the blocks around it. -/
  outer : List Nat
  /-- The possible key of each open bracket, the innermost first, and of the text outside of brackets. -/
  keys : List (Option PossibleKey)
  mayStartKey : Bool

namespace Scanner

def start (text : List Char) : Scanner := ⟨.start text, #[], 0, [], [none], true⟩

def inFlow (s : Scanner) : Bool := s.keys.length > 1

def push (s : Scanner) (t : Token) : Scanner := { s with tokens := s.tokens.push t }

/-- Goes on to the next token. Tabs are no indentation. A key may begin on a new line. -/
def skipGap : (fuel : Nat) → Scanner → Scanner
  | 0, s => s
  | fuel + 1, s =>
    let c := s.place
    let c := if c.column = 0 ∧ c.peek? = some '\uFEFF' then c.step else c
    let c := c.skipWhile fun x => x = ' ' ∨ (x = '\t' ∧ (s.inFlow ∨ ¬s.mayStartKey))
    let c := c.skipComment
    if c.sees isBreak then
      skipGap fuel { s with place := c.skipBreak, mayStartKey := s.mayStartKey ∨ ¬s.inFlow }
    else { s with place := c }

/-- The greatest distance between the beginning of a key and its colon. -/
def maxKey : Nat := 1024

/-- Gives up what can be a key no longer. -/
def dropStaleKeys? (s : Scanner) : Option Scanner := do
  let keys ← s.keys.mapM fun
    | none => some none
    | some k =>
      if k.place.line < s.place.line ∨ k.place.index + maxKey < s.place.index then
        if k.isRequired then none else some none
      else some (some k)
  some { s with keys }

/-- Gives up the possible key of the innermost bracket. -/
def dropKey? (s : Scanner) : Option Scanner :=
  match s.keys with
  | some k :: keys => if k.isRequired then none else some { s with keys := none :: keys }
  | _ => some s

/-- A key may begin here. -/
def noteKey? (s : Scanner) : Option Scanner :=
  if s.mayStartKey then do
    let key : PossibleKey := ⟨¬s.inFlow ∧ s.level = s.place.column + 1, s.tokens.size, s.place⟩
    let s ← s.dropKey?
    some { s with keys := some key :: s.keys.tail }
  else some s

/-- Closes blocks down to a level: how many, the level, and the levels around it. -/
def closing (target : Nat) : (level : Nat) → (outer : List Nat) → Nat × Nat × List Nat
  | level, [] => (0, level, [])
  | level, l :: outer =>
    if target < level then
      let (n, r) := closing target l outer
      (n + 1, r)
    else (0, level, l :: outer)

def closeTo (s : Scanner) (target : Nat) : Scanner :=
  if s.inFlow then s
  else
    let (n, level, outer) := closing target s.level s.outer
    { s with tokens := s.tokens ++ Array.replicate n .blockEnd, level, outer }

/-- Opens a block at a column, unless one is open there, with its token in front of the one with the given
number. -/
def openAt (s : Scanner) (column number : Nat) (t : Token) : Scanner :=
  if ¬s.inFlow ∧ s.level ≤ column then
    { s with
      tokens := s.tokens.insertIdxIfInBounds number t
      level := column + 1
      outer := s.level :: s.outer }
  else s

/-- Opens a block here. -/
def openHere (s : Scanner) (t : Token) : Scanner := s.openAt s.place.column s.tokens.size t

/-- Steps over a character that is a token of its own. -/
def takeChar (s : Scanner) (t : Token) : Scanner := { s.push t with place := s.place.step }

def marker? (s : Scanner) (t : Token) : Option Scanner := do
  let s ← (s.closeTo 0).dropKey?
  some { s.push t with place := s.place.skip 3, mayStartKey := false }

def directive? (s : Scanner) : Option Scanner := do
  let s ← (s.closeTo 0).dropKey?
  let (t, place) ← readDirective? s.place
  some { s.push t with place, mayStartKey := false }

def openBracket? (s : Scanner) (t : Token) : Option Scanner := do
  let s ← s.noteKey?
  some { s.takeChar t with keys := none :: s.keys, mayStartKey := true }

def closeBracket? (s : Scanner) (t : Token) : Option Scanner := do
  let s ← s.dropKey?
  some { s.takeChar t with
    keys := if s.inFlow then s.keys.tail else s.keys
    mayStartKey := false }

def comma? (s : Scanner) : Option Scanner := do
  let s ← s.dropKey?
  some { s.takeChar .comma with mayStartKey := true }

def entry? (s : Scanner) : Option Scanner := do
  if ¬s.inFlow ∧ ¬s.mayStartKey then none
  let s ← (s.openHere .blockSequence).dropKey?
  some { s.takeChar .entry with mayStartKey := true }

def key? (s : Scanner) : Option Scanner := do
  if ¬s.inFlow ∧ ¬s.mayStartKey then none
  let s ← (s.openHere .blockMapping).dropKey?
  some { s.takeChar .key with mayStartKey := ¬s.inFlow }

/-- A colon: what may have been a key is one. -/
def value? (s : Scanner) : Option Scanner :=
  match s.keys with
  | some k :: keys =>
    let s := { s with tokens := s.tokens.insertIdxIfInBounds k.number .key, keys := none :: keys }
    let s := s.openAt k.place.column k.number .blockMapping
    some { s.takeChar .value with mayStartKey := false }
  | _ =>
    if ¬s.inFlow ∧ ¬s.mayStartKey then none
    else
      let s := s.openHere .blockMapping
      some { s.takeChar .value with mayStartKey := ¬s.inFlow }

/-- A token that may be the beginning of a key. -/
def attach? (s : Scanner) (read : Cursor → Option (Token × Cursor)) : Option Scanner := do
  let s ← s.noteKey?
  let (t, place) ← read s.place
  some { s.push t with place, mayStartKey := false }

def quoted? (s : Scanner) (quote : Char) : Option Scanner :=
  s.attach? fun c =>
    (readQuoted? quote (c.rest.length + 1) [] c.step).map fun r => (.scalar .other (String.ofList r.1), r.2)

def block? (s : Scanner) (isLiteral : Bool) : Option Scanner := do
  let s ← s.dropKey?
  let (text, place) ← readBlock? isLiteral s.level s.place.step
  some { s.push (.scalar (if isLiteral then .literal else .other) (String.ofList text)) with
    place, mayStartKey := true }

def plain? (s : Scanner) : Option Scanner := do
  let s ← s.noteKey?
  let c := s.place
  let (text, isBroken, place) ← readPlain? s.inFlow s.level (2 * c.rest.length + 2) [] .none c
  some { s.push (.scalar .plain (String.ofList text.reverse)) with place, mayStartKey := isBroken }

/-- Whether a plain scalar begins here. -/
def startsPlain (s : Scanner) : Bool :=
  match s.place.peek? with
  | none => false
  | some x =>
    if x = '-' then ¬(s.place.peekAt? 1).any isBlank
    else if x = '?' ∨ x = ':' then ¬s.inFlow ∧ ¬s.place.gapAt 1
    else ¬isBlank x ∧ ¬isBreak x ∧
      x ∉ [',', '[', ']', '\x7b', '\x7d', '#', '&', '*', '!', '|', '>', '\'', '"', '%', '@', '\u0060']

/-- Reads the token that begins here. -/
def next? (s : Scanner) : Option Scanner :=
  let c := s.place
  let attached : Bool := s.inFlow ∨ c.gapAt 1
  match c.peek? with
  | none => none
  | some x =>
    if c.column = 0 ∧ x = '%' then s.directive?
    else if c.isMarker '-' then s.marker? .documentStart
    else if c.isMarker '.' then s.marker? .documentEnd
    else if x = '[' then s.openBracket? .flowSequence
    else if x = '\x7b' then s.openBracket? .flowMapping
    else if x = ']' then s.closeBracket? .flowSequenceEnd
    else if x = '\x7d' then s.closeBracket? .flowMappingEnd
    else if x = ',' then s.comma?
    else if x = '-' ∧ c.gapAt 1 then s.entry?
    else if x = '?' ∧ attached then s.key?
    else if x = ':' ∧ attached then s.value?
    else if x = '*' then s.attach? fun c => (readName? c).map fun r => (.alias r.1, r.2)
    else if x = '&' then s.attach? fun c => (readName? c).map fun r => (.anchor r.1, r.2)
    else if x = '!' then s.attach? (readTag? s.inFlow)
    else if x = '|' ∧ ¬s.inFlow then s.block? true
    else if x = '>' ∧ ¬s.inFlow then s.block? false
    else if x = '\'' ∨ x = '"' then s.quoted? x
    else if s.startsPlain then s.plain?
    else none

/-- Reads on to the end. -/
def run? : (fuel : Nat) → Scanner → Option (List Token)
  | 0, _ => none
  | fuel + 1, s => do
    let s ← (s.skipGap fuel).dropStaleKeys?
    let s := s.closeTo (s.place.column + 1)
    if s.place.isAtEnd then
      let s ← (s.closeTo 0).dropKey?
      some s.tokens.toList
    else run? fuel (← s.next?)

end Scanner

/-- The tokens of a text. -/
def tokens? (text : List Char) : Option (List Token) :=
  if text.all isAllowed then (Scanner.start text).run? (text.length + 2) else none

end EdgeFleet.Yaml
