import EdgeFleet.Yaml.Token

/-! # YAML documents

A document is a tree of scalars, sequences and mappings. An alias stands for the part of the tree that has
its anchor; it may stand within that part, so it is kept as it is.
-/

namespace EdgeFleet

inductive Yaml where
  | scalar (style : Yaml.Style) (tag : Option String) (text : String)
  | sequence (items : List Yaml)
  | mapping (pairs : List (Yaml × Yaml))
  | alias (anchor : Nat)

namespace Yaml

/-- A place where nothing stands. -/
def empty : Yaml := .scalar .plain none ""

structure Document where
  root : Yaml
  /-- The parts that have an anchor, by the number of the anchor. -/
  anchored : List (Nat × Yaml)

/-- The state of building a tree: the tokens that are left, what handles stand for, and the anchors so
far. -/
structure Builder where
  tokens : List Token
  handles : List (String × String)
  /-- The numbers of the anchors, the latest first. -/
  names : List (String × Nat)
  anchored : List (Nat × Yaml)

namespace Builder

/-- Builds something from the tokens that come first. -/
abbrev Build (α : Type) := Builder → Option (α × Builder)

def next? (b : Builder) : Option Token := b.tokens.head?

def drop (b : Builder) : Builder := { b with tokens := b.tokens.tail }

/-- Whether one of the given tokens comes next. -/
def sees (b : Builder) (ts : List Token) : Bool := b.next?.any (ts.contains ·)

/-- The tag that a handle and what follows it make up. -/
def tagOf? (b : Builder) (handle rest : String) : Option String :=
  if handle = "" then some rest else (b.handles.lookup handle).map (· ++ rest)

/-- An anchor and a tag in front of a node, in either order. -/
def properties? : Build (Option String × Option String) := fun b =>
  match b.tokens with
  | .anchor a :: .tag h r :: ts | .tag h r :: .anchor a :: ts =>
    (b.tagOf? h r).map fun t => ((some a, some t), { b with tokens := ts })
  | .anchor a :: ts => some ((some a, none), { b with tokens := ts })
  | .tag h r :: ts => (b.tagOf? h r).map fun t => ((none, some t), { b with tokens := ts })
  | _ => some ((none, none), b)

/-- Builds a node; `inBlock` is whether blocks may begin, and `mayBeFlat` whether a sequence may stand
without indentation. -/
abbrev Nodes := (inBlock mayBeFlat : Bool) → Build Yaml

/-- Nothing, when one of the given tokens comes next, and a node otherwise. -/
def unless? (ends : List Token) (node : Build Yaml) : Build Yaml := fun b =>
  if b.sees ends then some (Yaml.empty, b) else node b

/-- The value of a key, nothing when there is no colon. -/
def value? (ends : List Token) (node : Build Yaml) : Build Yaml := fun b =>
  if b.next? = some .value then unless? ends node b.drop else some (Yaml.empty, b)

/-- The items of a block sequence. -/
def blockItems? (node : Nodes) : (fuel : Nat) → Build (List Yaml)
  | 0, _ => none
  | fuel + 1, b =>
    match b.next? with
    | some .blockEnd => some ([], b.drop)
    | some .entry => do
      let (item, b) ← unless? [.entry, .blockEnd] (node true false) b.drop
      (blockItems? node fuel b).map fun r => (item :: r.1, r.2)
    | _ => none

/-- The items of a sequence without indentation. -/
def flatItems? (node : Nodes) : (fuel : Nat) → Build (List Yaml)
  | 0, _ => none
  | fuel + 1, b =>
    if b.next? = some .entry then do
      let (item, b) ← unless? [.entry, .key, .value, .blockEnd] (node true false) b.drop
      (flatItems? node fuel b).map fun r => (item :: r.1, r.2)
    else some ([], b)

/-- The pairs of a block mapping. -/
def blockPairs? (node : Nodes) : (fuel : Nat) → Build (List (Yaml × Yaml))
  | 0, _ => none
  | fuel + 1, b =>
    match b.next? with
    | some .blockEnd => some ([], b.drop)
    | some .key => do
      let ends := [.key, .value, .blockEnd]
      let (k, b) ← unless? ends (node true true) b.drop
      let (v, b) ← value? ends (node true true) b
      (blockPairs? node fuel b).map fun r => ((k, v) :: r.1, r.2)
    | _ => none

/-- A pair that stands alone in a flow sequence. A token that shows that there is no key is lost. -/
def onlyPair? (node : Nodes) : Build Yaml := fun b => do
  let (k, b) ←
    if b.sees [.value, .comma, .flowSequenceEnd] then some (Yaml.empty, b.drop) else node false false b
  let (v, b) ← value? [.comma, .flowSequenceEnd] (node false false) b
  some (.mapping [(k, v)], b)

/-- Goes over the comma between two items of a flow collection. -/
def comma? (isFirst : Bool) (b : Builder) : Option Builder :=
  if isFirst then some b else if b.next? = some .comma then some b.drop else none

/-- The items of a flow sequence. A comma may follow the last one. -/
def flowItems? (node : Nodes) : (fuel : Nat) → (isFirst : Bool) → Build (List Yaml)
  | 0, _, _ => none
  | fuel + 1, isFirst, b =>
    if b.next? = some .flowSequenceEnd then some ([], b.drop)
    else do
      let b ← comma? isFirst b
      if b.next? = some .flowSequenceEnd then some ([], b.drop)
      else
        let (item, b) ← if b.next? = some .key then onlyPair? node b.drop else node false false b
        (flowItems? node fuel false b).map fun r => (item :: r.1, r.2)

/-- The pairs of a flow mapping. A comma may follow the last one. -/
def flowPairs? (node : Nodes) : (fuel : Nat) → (isFirst : Bool) → Build (List (Yaml × Yaml))
  | 0, _, _ => none
  | fuel + 1, isFirst, b =>
    if b.next? = some .flowMappingEnd then some ([], b.drop)
    else do
      let b ← comma? isFirst b
      if b.next? = some .flowMappingEnd then some ([], b.drop)
      else
        let ends := [.comma, .flowMappingEnd]
        let (pair, b) ←
          if b.next? = some .key then do
            let (k, b) ← unless? (.value :: ends) (node false false) b.drop
            let (v, b) ← value? ends (node false false) b
            some ((k, v), b)
          else do
            let (k, b) ← node false false b
            some ((k, Yaml.empty), b)
        (flowPairs? node fuel false b).map fun r => (pair :: r.1, r.2)

/-- What stands behind the properties of a node. -/
def content? (node : Nodes) (inBlock mayBeFlat : Bool) (tag : Option String) (isMarked : Bool) :
    Build Yaml := fun b =>
  let size := b.tokens.length + 1
  match b.next? with
  | some (.scalar style text) => some (.scalar style tag text, b.drop)
  | some .flowSequence => (flowItems? node size true b.drop).map fun r => (.sequence r.1, r.2)
  | some .flowMapping => (flowPairs? node size true b.drop).map fun r => (.mapping r.1, r.2)
  | t =>
    if mayBeFlat ∧ t = some .entry then (flatItems? node size b).map fun r => (.sequence r.1, r.2)
    else if inBlock ∧ t = some .blockSequence then
      (blockItems? node size b.drop).map fun r => (.sequence r.1, r.2)
    else if inBlock ∧ t = some .blockMapping then
      (blockPairs? node size b.drop).map fun r => (.mapping r.1, r.2)
    else if isMarked then some (.scalar .plain tag "", b)
    else none

/-- A node. An anchor is known from the beginning of its node on. -/
def node? : (fuel : Nat) → Nodes
  | 0, _, _, _ => none
  | fuel + 1, inBlock, mayBeFlat, b =>
    match b.next? with
    | some (.alias name) => (b.names.lookup name).map fun n => (.alias n, b.drop)
    | _ => do
      let ((anchor, tag), b) ← properties? b
      let number := b.names.length
      let isMarked : Bool := anchor.isSome ∨ tag.isSome
      let b := { b with names := (anchor.map (·, number)).toList ++ b.names }
      let (node, b) ← content? (node? fuel) inBlock mayBeFlat tag isMarked b
      some (node, { b with anchored := (anchor.map fun _ => (number, node)).toList ++ b.anchored })

end Builder

/-- Directives in front of a document: what handles stand for, and the tokens behind. -/
def directives? (tokens : List Token) : Option (List (String × String) × List Token) := do
  let isDirective : Token → Bool
    | .version _ _ | .tagHandle _ _ => true
    | _ => false
  let ds := tokens.takeWhile isDirective
  let versions := ds.filterMap fun | .version major minor => some (major, minor) | _ => none
  let handles := ds.filterMap fun | .tagHandle h f => some (h, f) | _ => none
  guard (versions.length ≤ 1 ∧ versions.all fun v => v = (1, 1) ∨ v = (1, 2))
  guard (handles.map (·.1)).Nodup
  some (handles ++ [("!", "!"), ("!!", "tag:yaml.org,2002:")], tokens.dropWhile isDirective)

/-- The one document of a text; an empty one when there is none. -/
def parse? (text : String) : Option Document := do
  let tokens ← tokens? text.toList
  if tokens = [] then return ⟨empty, []⟩
  let (handles, behind) ← directives? tokens
  let hasDirectives : Bool := behind.length < tokens.length
  let hasStart : Bool := behind.head? = some .documentStart
  guard (¬hasDirectives ∨ hasStart)
  let b : Builder := ⟨if hasStart then behind.tail else behind, handles, [], []⟩
  let isOver : Bool := match b.next? with
    | none | some .documentStart | some .documentEnd | some (.version _ _) | some (.tagHandle _ _) => true
    | _ => false
  let (root, b) ←
    if hasStart ∧ isOver then some (empty, b) else b.node? (2 * tokens.length + 2) true false
  guard (b.tokens.all (· = .documentEnd))
  return ⟨root, b.anchored⟩

end Yaml

end EdgeFleet
