import EdgeFleet.Compression.Bits

/-! # Prefix codes

A prefix code is a binary tree with symbols at its leaves. Codes are transmitted as lengths: the
code words are handed out from left to right, so the lengths in their order determine the tree.
-/

namespace EdgeFleet

inductive CodeTree where
  /-- No code word begins like this. -/
  | none
  | leaf (symbol : Nat)
  | node (zero one : CodeTree)
  deriving Inhabited

namespace CodeTree

variable {σ : Type}

/-- Reads bits until they spell a code word. -/
def decode? (next? : σ → Option (Bool × σ)) : CodeTree → σ → Option (Nat × σ)
  | .none, _ => Option.none
  | .leaf symbol, s => some (symbol, s)
  | .node zero one, s => match next? s with
    | Option.none => Option.none
    | some (false, s) => decode? next? zero s
    | some (true, s) => decode? next? one s

/-- Hands out code words from left to right below a node of the given depth, at most `levels` more
levels down. Yields the symbols that have found no place. -/
def grow : (levels depth : Nat) → List (Nat × Nat) → CodeTree × List (Nat × Nat)
  | _, _, [] => (.none, [])
  | 0, depth, (symbol, length) :: rest =>
    if length = depth then (.leaf symbol, rest) else (.none, (symbol, length) :: rest)
  | levels + 1, depth, (symbol, length) :: rest =>
    if length = depth then (.leaf symbol, rest)
    else
      let (zero, rest) := grow levels (depth + 1) ((symbol, length) :: rest)
      let (one, rest) := grow levels (depth + 1) rest
      (.node zero one, rest)

/-- The tree of symbols with the lengths of their code words, given from left to right. -/
def ofLengths (maxLength : Nat) (code : List (Nat × Nat)) : CodeTree := (grow maxLength 0 code).1

/-- The share of all words of `maxLength` bits that the code words take, in such words. -/
def weight (maxLength : Nat) (code : List (Nat × Nat)) : Nat :=
  code.foldr (fun e n => (1 <<< (maxLength - e.2)) + n) 0

/-- Whether every sequence of bits begins with a code word. -/
def isComplete (maxLength : Nat) (code : List (Nat × Nat)) : Bool :=
  weight maxLength code = 1 <<< maxLength

/-- The code word of each symbol. -/
def words : CodeTree → List (Nat × List Bool)
  | .none => []
  | .leaf symbol => [(symbol, [])]
  | .node zero one =>
    (words zero).map (fun e => (e.1, false :: e.2)) ++ (words one).map fun e => (e.1, true :: e.2)

end CodeTree

/-- The symbols in use, numbered by place, the shorter code words first. -/
def byLength (maxLength : Nat) (lengths : List Nat) : List (Nat × Nat) :=
  (List.range maxLength).flatMap fun l =>
    (lengths.zipIdx.filter fun e => e.1 = l + 1).map fun e => (e.2, e.1)

/-- The symbols in use, numbered by place, the longer code words first. -/
def byLengthDescending (maxLength : Nat) (lengths : List Nat) : List (Nat × Nat) :=
  (List.range maxLength).flatMap fun l =>
    (lengths.zipIdx.filter fun e => e.1 = maxLength - l).map fun e => (e.2, e.1)

end EdgeFleet
