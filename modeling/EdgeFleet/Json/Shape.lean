import EdgeFleet.Json.Number
import EdgeFleet.Json.Reader

/-! # The first fault of an input

An input may be no JSON, and it may be none of the expected shape. Which of the two is said depends on what
comes first when the input is read from left to right.
-/

namespace EdgeFleet.Json

/-- What a value is expected to be. -/
inductive Shape where
  | text
  | list (item : Shape)
  | map (item : Shape)
  /-- A record, with whether each field has to be given. -/
  | record (fields : List (String × Bool × Shape))

inductive Fault where
  /-- The input is not JSON, or spells a string or a number that there is not. -/
  | malformed
  /-- A value is not of the expected shape, or a field is missing or given twice. -/
  | mismatched
  deriving DecidableEq

/-- The tokens before the first place where there can be none. -/
def frontTokens : List Token × Scan → Bytes → List Token
  | (ts, .word done), [] => match readWord? done.reverse with
    | some j => (.scalar j :: ts).reverse
    | none => ts.reverse
  | (ts, _), [] => ts.reverse
  | s, b :: bs => match scanStep s b with
    | some s => frontTokens s bs
    | none => s.1.reverse

namespace Shape

/-- Goes over tokens up to the first fault; yields the tokens behind. -/
abbrev Check := List Token → Except Fault (List Token)

/-- The fault of a value that is not what is expected. -/
def unexpected : List Token → Fault
  | .scalar j :: _ => if j.keepable then .mismatched else .malformed
  | .lbracket :: _ | .lbrace :: _ => .mismatched
  | _ => .malformed

def checkText : Check
  | .scalar (.str (some _)) :: ts => .ok ts
  | ts => .error (unexpected ts)

/-- Goes over any value. -/
def skipValue : Build → Check
  | .complete _, ts => .ok ts
  | .running _ _, [] => .error .malformed
  | .running fs e, t :: ts => match buildStep (.running fs e) t with
    | some b => skipValue b ts
    | none => .error .malformed

def skip : Check := skipValue (.running [] .value)

/-- Goes over the rest of an array behind an item, and over one more item after each comma. -/
def checkMore (item : Check) : (fuel : Nat) → Check
  | 0, _ => .error .malformed
  | fuel + 1, ts => match ts with
    | .rbracket :: ts => .ok ts
    | .comma :: ts => do checkMore item fuel (← item ts)
    | _ => .error .malformed

def checkItems (item : Check) : Check
  | .rbracket :: ts => .ok ts
  | ts => do checkMore item (ts.length + 1) (← item ts)

/-- Goes over the members of an object. What a key means may depend on the keys before it. -/
def checkMembers (member : (before : List String) → String → Except Fault Check) :
    (fuel : Nat) → (before : List String) → List Token → Except Fault (List String × List Token)
  | 0, _, _ => .error .malformed
  | fuel + 1, before, ts => match ts with
    | .scalar (.str (some key)) :: ts => do
      let value ← member before key
      match ts with
      | .colon :: ts =>
        match ← value ts with
        | .rbrace :: ts => .ok (key :: before, ts)
        | .comma :: ts => checkMembers member fuel (key :: before) ts
        | _ => .error .malformed
      | _ => .error .malformed
    | _ => .error .malformed

/-- Goes over the fields of a record in their order. -/
def checkFields (isFirst : Bool) : List (Bool × Check) → Check
  | [], ts => match ts with
    | .rbracket :: ts => .ok ts
    | _ => .error .malformed
  | (isRequired, field) :: fields, ts => match isFirst, ts with
    | _, .rbracket :: rest =>
      if isRequired then .error .mismatched else checkFields false fields (.rbracket :: rest)
    | true, ts => do checkFields false fields (← field ts)
    | false, .comma :: ts => do checkFields false fields (← field ts)
    | false, _ => .error .malformed

/-- Goes over a record, given how to go over its fields. -/
def checkRecord (fields : List (String × Bool × Check)) : Check
  | .lbracket :: ts => checkFields true (fields.map (·.2)) ts
  | .lbrace :: ts => do
    let member (before : List String) (key : String) : Except Fault Check :=
      match fields.lookup key with
      | none => .ok skip
      | some field => if before.contains key then .error .mismatched else .ok field.2
    let (given, ts) ← match ts with
      | .rbrace :: ts => .ok ([], ts)
      | ts => checkMembers member (ts.length + 1) [] ts
    if fields.any fun f => f.2.1 && !given.contains f.1 then .error .mismatched else .ok ts
  | ts => .error (unexpected ts)

mutual

/-- Goes over a value of the shape. -/
def check : Shape → Check
  | .text => checkText
  | .list item => fun
    | .lbracket :: ts => checkItems (check item) ts
    | ts => .error (unexpected ts)
  | .map item => fun
    | .lbrace :: .rbrace :: ts => .ok ts
    | .lbrace :: ts => (checkMembers (fun _ _ => .ok (check item)) (ts.length + 1) [] ts).map (·.2)
    | ts => .error (unexpected ts)
  | .record fields => checkRecord (checks fields)

def checks : List (String × Bool × Shape) → List (String × Bool × Check)
  | [] => []
  | (name, isRequired, shape) :: fields => (name, isRequired, check shape) :: checks fields

end

/-- The first fault of an input that is to be one value of the shape. -/
def fault? (s : Shape) (bs : Bytes) : Option Fault :=
  match check s (frontTokens ([], .between) bs) with
  | .error f => some f
  | .ok [] => if (tokens? bs).isSome then none else some .malformed
  | .ok _ => some .malformed

end Shape

end EdgeFleet.Json
