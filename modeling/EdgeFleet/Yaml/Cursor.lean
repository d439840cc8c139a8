/-! # A place in a YAML text

A place knows its line and its column, since indentation carries the structure of a text and a key must
stand on one line.
-/

namespace EdgeFleet.Yaml

/-- Characters that may stand in a text. -/
def isAllowed (c : Char) : Bool :=
  c = '\t' ∨ c = '\n' ∨ c = '\r' ∨ (' ' ≤ c ∧ c ≤ '~') ∨ c = '\u0085' ∨
    ('\u00A0' ≤ c ∧ c ≠ '\uFFFE' ∧ c ≠ '\uFFFF')

def isBlank (c : Char) : Bool := c = ' ' ∨ c = '\t'

def isBreak (c : Char) : Bool :=
  c = '\n' ∨ c = '\r' ∨ c = '\u0085' ∨ c = '\u2028' ∨ c = '\u2029'

/-- Characters of names. -/
def isNameChar (c : Char) : Bool := c.isAlphanum ∨ c = '_' ∨ c = '-'

structure Cursor where
  rest : List Char
  /-- How many characters are before the place. -/
  index : Nat
  line : Nat
  column : Nat

namespace Cursor

def start (text : List Char) : Cursor := ⟨text, 0, 0, 0⟩

def peek? (c : Cursor) : Option Char := c.rest.head?

/-- The character after the next `n`. -/
def peekAt? (c : Cursor) (n : Nat) : Option Char := c.rest[n]?

def isAtEnd (c : Cursor) : Bool := c.rest.isEmpty

/-- Whether the next character is in a class. -/
def sees (c : Cursor) (p : Char → Bool) : Bool := c.peek?.any p

/-- Whether a blank, a line break or the end comes after the next `n` characters. -/
def gapAt (c : Cursor) (n : Nat) : Bool := (c.peekAt? n).all fun x => isBlank x ∨ isBreak x

/-- Whether a line break or the end comes next. -/
def atLineEnd (c : Cursor) : Bool := c.peek?.all isBreak

/-- Steps over the next `n` characters, none of which breaks the line. -/
def skip (c : Cursor) (n : Nat) : Cursor :=
  { c with rest := c.rest.drop n, index := c.index + n, column := c.column + n }

def step (c : Cursor) : Cursor := c.skip 1

/-- Steps over all characters in a class that come next; yields them. -/
def takeWhile (c : Cursor) (p : Char → Bool) : List Char × Cursor :=
  let cs := c.rest.takeWhile p
  (cs, c.skip cs.length)

def skipWhile (c : Cursor) (p : Char → Bool) : Cursor := (c.takeWhile p).2

/-- Steps over a line break, if one comes next; yields what it is read as. -/
def takeBreak (c : Cursor) : List Char × Cursor :=
  let next (n : Nat) : Cursor := ⟨c.rest.drop n, c.index + n, c.line + 1, 0⟩
  match c.rest with
  | '\r' :: '\n' :: _ => (['\n'], next 2)
  | x :: _ =>
    if x = '\u2028' ∨ x = '\u2029' then ([x], next 1)
    else if isBreak x then (['\n'], next 1)
    else ([], c)
  | [] => ([], c)

def skipBreak (c : Cursor) : Cursor := c.takeBreak.2

/-- Steps over a comment, if one begins here. -/
def skipComment (c : Cursor) : Cursor :=
  if c.peek? = some '#' then c.skipWhile (¬isBreak ·) else c

/-- The next line, when nothing but blanks and a comment is left of this one. -/
def endLine? (c : Cursor) : Option Cursor :=
  let c := (c.skipWhile isBlank).skipComment
  if c.atLineEnd then some c.skipBreak else none

/-- Whether a line begins here with three times the character `x` and nothing attached to it. -/
def isMarker (c : Cursor) (x : Char) : Bool :=
  c.column = 0 ∧ c.rest.take 3 = [x, x, x] ∧ c.gapAt 3

/-- Whether a document begins or ends here. -/
def atMarker (c : Cursor) : Bool := c.isMarker '-' ∨ c.isMarker '.'

end Cursor

end EdgeFleet.Yaml
