import EdgeFleet.Toml.Basic
import EdgeFleet.Toml.Quoted

/-! # Reading TOML line by line

A document is a sequence of lines: a value under a dotted key, or the header of a table. Values may go
over several lines.
-/

namespace EdgeFleet.Toml

/-- Reads something from the beginning of a text; yields it and what follows. -/
abbrev Reader (α : Type) := List Char → Option (α × List Char)

def skipBlanks (cs : List Char) : List Char := cs.dropWhile isBlank

/-- What follows a character. -/
def after? (c : Char) (cs : List Char) : Option (List Char) := Timestamp.expect? c cs

/-- What is left of a line behind a comment, if one begins here. -/
def skipComment : List Char → List Char
  | '#' :: cs => cs.dropWhile isPlain
  | cs => cs

/-- The next line, when nothing but blanks and a comment is left of this one. -/
def endLine? (cs : List Char) : Option (List Char) :=
  match skipComment (skipBlanks cs) with
  | [] => some []
  | cs => afterBreak? cs

/-- What follows blanks, comments and line breaks. -/
def skipLines : (fuel : Nat) → List Char → List Char
  | 0, cs => cs
  | fuel + 1, cs =>
    let rest := skipComment (skipBlanks cs)
    match afterBreak? rest with
    | some rest => skipLines fuel rest
    | none => rest

/-! ## Keys -/

def isKeyChar (c : Char) : Bool := c.isAlphanum ∨ c = '_' ∨ c = '-'

/-- A key: quoted on one line, or a word. -/
def readKey? : Reader String := fun cs =>
  match formAt? cs with
  | some f => if f.isLong then none else readQuoted? cs
  | none =>
    let word := cs.takeWhile isKeyChar
    if word = [] then none else some (String.ofList word, cs.dropWhile isKeyChar)

/-- Keys with points between them. -/
def readPath? : (fuel : Nat) → Reader (List String)
  | 0, _ => none
  | fuel + 1, cs => do
    let (key, cs) ← readKey? (skipBlanks cs)
    match skipBlanks cs with
    | '.' :: cs => (readPath? fuel cs).map fun r => (key :: r.1, r.2)
    | cs => some ([key], cs)

/-- The greatest number of keys in a path, and of arrays and tables around a value. -/
def maxDepth : Nat := 79

def path? : Reader (List String) := fun cs =>
  (readPath? cs.length cs).filter fun r => decide (r.1.length ≤ maxDepth)

/-! ## Values -/

/-- A value that is one word, or a date and a time with a space between them. -/
def readWord? : Reader Toml := fun cs =>
  let word := cs.takeWhile isWordChar
  let rest := cs.dropWhile isWordChar
  if word = "true".toList then some (.bool true, rest)
  else if word = "false".toList then some (.bool false, rest)
  else match readInteger? word with
    | some n => some (.integer n, rest)
    | none =>
      if isMoment word then
        let time := rest.tail.takeWhile isWordChar
        if afterDate? word = some [] ∧ rest.head? = some ' ' ∧ isDayTime time then
          some (.moment, rest.tail.dropWhile isWordChar)
        else some (.moment, rest)
      else if isFraction word then some (.fraction, rest)
      else none

def readScalar? : Reader Toml := fun cs =>
  match formAt? cs with
  | some _ => (readQuoted? cs).map fun r => (.text r.1, r.2)
  | none => readWord? cs

/-- A value under a dotted key. -/
def readPair? (value : Reader Toml) : Reader (List String × Toml) := fun cs => do
  let (path, cs) ← path? cs
  let cs ← after? '=' cs
  (value (skipBlanks cs)).map fun r => ((path, r.1), r.2)

/-- The items of an array up to its end. A comma may follow the last one. -/
def readItems? (value : Reader Toml) : (fuel : Nat) → Reader (List Toml)
  | 0, _ => none
  | fuel + 1, cs =>
    match skipLines cs.length cs with
    | ']' :: cs => some ([], cs)
    | cs => do
      let (item, cs) ← value cs
      match skipLines cs.length cs with
      | ',' :: cs => (readItems? value fuel cs).map fun r => (item :: r.1, r.2)
      | ']' :: cs => some ([item], cs)
      | _ => none

/-- The pairs of a table up to its end, all on one line. -/
def readPairs? (value : Reader Toml) : (fuel : Nat) → Reader (List (List String × Toml))
  | 0, _ => none
  | fuel + 1, cs => do
    let (pair, cs) ← readPair? value cs
    match skipBlanks cs with
    | ',' :: cs => (readPairs? value fuel cs).map fun r => (pair :: r.1, r.2)
    | '}' :: cs => some ([pair], cs)
    | _ => none

/-! ## Tables -/

/-- Replaces the value of a key, or adds one. -/
def alter (key : String) (f : Option Toml → Option Toml) (ms : Members) : Option Members :=
  match ms.lookup key with
  | some old => (f (some old)).map fun new => ms.map fun m => if m.1 = key then (key, new) else m
  | none => (f none).map fun new => ms ++ [(key, new)]

/-- Puts a value under a dotted key. The last table on the way must be the one that the way started in,
or have come to be by a dotted key. -/
def putAt (value : Toml) : (path : List String) → (fits : Bool) → Members → Option Members
  | [], _, _ => none
  | [key], fits, ms => alter key (fun old => if fits ∧ old.isNone then some value else none) ms
  | key :: path, _, ms => alter key (fun
      | none => (putAt value path true []).map (.table .dotted)
      | some (.table .dotted inner) => (putAt value path true inner).map (.table .dotted)
      | some (.table .implied inner) => (putAt value path false inner).map (.table .implied)
      | some (.tables items) =>
        (putAt value path false (items.getLast?.getD [])).map fun ms => .tables (items.dropLast ++ [ms])
      | _ => none) ms

/-- Changes the table that headers lead to; of repeated tables, the last. -/
def within (f : Members → Option Members) : (path : List String) → Members → Option Members
  | [], ms => f ms
  | key :: path, ms => alter key (fun
      | none => (within f path []).map (.table .implied)
      | some (.table .closed _) => none
      | some (.table origin inner) => (within f path inner).map (.table origin)
      | some (.tables items) =>
        (within f path (items.getLast?.getD [])).map fun ms => .tables (items.dropLast ++ [ms])
      | _ => none) ms

/-- The table of a header, which may not have had one. -/
def openTable (key : String) : Members → Option Members := alter key fun
  | none => some (.table .header [])
  | some (.table .implied inner) => some (.table .header inner)
  | _ => none

/-- One more table of a header that may be repeated. -/
def openNext (key : String) : Members → Option Members := alter key fun
  | none => some (.tables [[]])
  | some (.tables items) => some (.tables (items ++ [[]]))
  | _ => none

/-! ## Documents -/

/-- A value with at most `depth` arrays and tables around the values in it. -/
def readValue? : (depth : Nat) → Reader Toml
  | 0, cs => readScalar? cs
  | depth + 1, cs =>
    match cs with
    | '[' :: cs => (readItems? (readValue? depth) (cs.length + 1) cs).map fun r => (.array r.1, r.2)
    | '{' :: cs =>
      match skipBlanks cs with
      | '}' :: cs => some (.table .closed [], cs)
      | _ => do
        let (pairs, cs) ← readPairs? (readValue? depth) (cs.length + 1) cs
        let members ← pairs.foldlM (fun ms p => putAt p.2 p.1 true ms) []
        some (.table .closed members, cs)
    | cs => readScalar? cs

inductive Line where
  | pair (path : List String) (value : Toml)
  | header (path : List String)
  /-- A header that may be repeated. -/
  | nextHeader (path : List String)

/-- A line, up to its end. -/
def readLine? : Reader Line := fun cs =>
  match cs with
  | '[' :: '[' :: cs => do
    let (path, cs) ← path? cs
    let cs ← after? ']' cs
    let cs ← after? ']' cs
    some (.nextHeader path, cs)
  | '[' :: cs => do
    let (path, cs) ← path? cs
    let cs ← after? ']' cs
    some (.header path, cs)
  | cs => (readPair? (readValue? maxDepth) cs).map fun r => (.pair r.1.1 r.1.2, r.2)

/-- The lines of a document, blank lines and comments left out. -/
def readLines? : (fuel : Nat) → List Char → Option (List Line)
  | 0, _ => none
  | fuel + 1, cs =>
    match skipBlanks cs with
    | [] => some []
    | c :: cs =>
      if c = '#' ∨ c = '\n' ∨ c = '\r' then (endLine? (c :: cs)).bind (readLines? fuel)
      else do
        let (line, cs) ← readLine? (c :: cs)
        (readLines? fuel (← endLine? cs)).map (line :: ·)

/-- A document so far, and the way to the table that pairs are added to. -/
structure Draft where
  root : Members
  current : List String

def Draft.add? (d : Draft) : Line → Option Draft
  | .pair path value =>
    (within (putAt value path true) d.current d.root).map fun root => { d with root }
  | .header path => do
    let key ← path.getLast?
    (within (openTable key) path.dropLast d.root).map fun root => ⟨root, path⟩
  | .nextHeader path => do
    let key ← path.getLast?
    (within (openNext key) path.dropLast d.root).map fun root => ⟨root, path⟩

/-- The table that lines make up. -/
def ofLines? (lines : List Line) : Option Members :=
  (lines.foldlM Draft.add? ⟨[], []⟩).map (·.root)

/-- The table that a text spells. A byte order mark at its beginning does not count. -/
def parse? (text : String) : Option Members :=
  let cs := match text.toList with
    | '\uFEFF' :: cs => cs
    | cs => cs
  (readLines? (cs.length + 1) cs).bind ofLines?

end EdgeFleet.Toml
