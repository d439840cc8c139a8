import EdgeFleet.Text.Bytes

/-! # A tree of files

What a program that keeps its data in files can see of a file system: folders and files at locations,
and for each operation the reasons for which it is refused.
-/

namespace EdgeFleet

/-- Why an operation on files is refused. -/
inductive FileError where
  | notFound | notADirectory | isADirectory | alreadyExists | invalidInput | invalidFilename
  | invalidData
  deriving DecidableEq

namespace FileError

def name : FileError → String
  | notFound => "NotFound"
  | notADirectory => "NotADirectory"
  | isADirectory => "IsADirectory"
  | alreadyExists => "AlreadyExists"
  | invalidInput => "InvalidInput"
  | invalidFilename => "InvalidFilename"
  | invalidData => "InvalidData"

end FileError

/-- The names on the way from the root, the root itself being the empty location. -/
abbrev Location := List String

namespace Location

/-- The locations on the way, from the root on, with the location itself. -/
def fronts (l : Location) : List Location := (List.range (l.length + 1)).map l.take

/-- A text cut at its slashes. -/
def splitSlashes (cs : List Char) : List (List Char) :=
  cs.foldr (fun c parts =>
    if c = '/' then [] :: parts
    else match parts with
      | [] => [[c]]
      | part :: parts => (c :: part) :: parts) [[]]

/-- One step of a path: nowhere, up, or into a name. -/
def follow (l : Location) (part : List Char) : Location :=
  if part = [] ∨ part = ['.'] then l
  else if part = ['.', '.'] then l.dropLast
  else l ++ [String.ofList part]

/-- Where a path begins: at the root if it begins with a slash, and else at the location it is taken from. -/
def origin (l : Location) (path : String) : Location :=
  if path.toList.head? = some '/' then [] else l

/-- Where a path leads from a location. -/
def join (l : Location) (path : String) : Location :=
  (splitSlashes path.toList).foldl follow (origin l path)

end Location

/-- The longest name, in octets. -/
def maxName : Nat := 255

inductive FileNode where
  | file (content : Bytes)
  | folder
  deriving DecidableEq

/-- Files and folders by location. The root is always a folder. -/
structure FileTree where
  nodes : List (Location × FileNode)
  deriving DecidableEq

namespace FileTree

def empty : FileTree := ⟨[]⟩

def node? (t : FileTree) (l : Location) : Option FileNode :=
  if l = [] then some .folder else t.nodes.lookup l

def put (t : FileTree) (l : Location) (n : FileNode) : FileTree :=
  ⟨(l, n) :: t.nodes.filter fun e => e.1 ≠ l⟩

def erase (t : FileTree) (l : Location) : FileTree :=
  ⟨t.nodes.filter fun e => e.1 ≠ l⟩

/-- No name with a zero in it can be asked for. -/
def checkNames (l : Location) : Except FileError Unit :=
  if l.any fun name => name.toList.contains '\x00' then .error .invalidInput else .ok ()

/-- No folder has names that are too long. -/
def checkLengths (l : Location) : Except FileError Unit :=
  if l.any fun name => name.utf8ByteSize > maxName then .error .invalidFilename else .ok ()

/-- Whether all names on the way can be names. -/
def isNameable (l : Location) : Except FileError Unit := do
  checkNames l
  checkLengths l

/-- Whether there is a folder at a location, and why not. -/
def checkFolder (t : FileTree) (l : Location) : Except FileError Unit :=
  if (Location.fronts l).any fun front => t.node? front matches some (.file _) then .error .notADirectory
  else if t.node? l = some FileNode.folder then .ok ()
  else .error .notFound

/-- The way to a location as far as its names are not too long. -/
def reach (l : Location) : Location := l.takeWhile fun name => name.utf8ByteSize ≤ maxName

/-- What is at a location, when the way to it exists. A name that is too long is not noticed before the way has
come to it. -/
def find (t : FileTree) (l : Location) : Except FileError (Option FileNode) := do
  checkNames l
  checkFolder t (reach l.dropLast)
  checkLengths l
  pure (t.node? l)

/-! ## Operations -/

/-- Makes the folders on the way to a location, and one there. -/
def makeFolders (t : FileTree) (l : Location) : Except FileError FileTree := do
  isNameable l
  if t.node? l matches some (.file _) then throw .alreadyExists
  if (Location.fronts l).any fun front => t.node? front matches some (.file _) then throw .notADirectory
  pure ((Location.fronts l).foldl (fun t front =>
    if (t.node? front).isSome then t else t.put front .folder) t)

/-- Whether anything is at a location. -/
def exist (t : FileTree) (l : Location) : Except FileError Bool :=
  match t.find l with
  | .ok n => .ok n.isSome
  | .error .notFound => .ok false
  | .error e => .error e

def read (t : FileTree) (l : Location) : Except FileError Bytes := do
  match ← t.find l with
  | some (.file content) => pure content
  | some .folder => throw .isADirectory
  | none => throw .notFound

/-- Writes a file, over one that is there. -/
def write (t : FileTree) (l : Location) (content : Bytes) : Except FileError FileTree := do
  match ← t.find l with
  | some .folder => throw .isADirectory
  | _ => pure (t.put l (.file content))

/-- Moves a file, over one that is at its new place. -/
def rename (t : FileTree) (source target : Location) : Except FileError FileTree := do
  let content ← t.read source
  match ← t.find target with
  | some .folder => throw .isADirectory
  | _ => pure ((t.erase source).put target (.file content))

def remove (t : FileTree) (l : Location) : Except FileError FileTree := do
  match ← t.find l with
  | some (.file _) => pure (t.erase l)
  | some .folder => throw .isADirectory
  | none => throw .notFound

/-- The names in a folder. -/
def names (t : FileTree) (l : Location) : Except FileError (List String) := do
  isNameable l
  checkFolder t l
  pure ((t.nodes.filterMap fun e =>
    if e.1.dropLast = l then e.1.getLast? else none).mergeSort (fun a b => a ≤ b))

end FileTree

/-- What follows the last point of a name. A point at the beginning does not count. -/
def extension? (name : String) : Option String :=
  let tail := name.toList.reverse.takeWhile (· ≠ '.')
  let front := name.toList.reverse.drop (tail.length + 1)
  if front = [] then none else some (String.ofList tail.reverse)

end EdgeFleet
