import Crosslink.Json.Number
import Crosslink.Text.Quoted

/-!
# What JSON says

Lists and objects are read part by part, each part by the reader that its place asks for:
`readList`, `readObject`, and `readRecord` for an object with known members, which may also be given
as the list of their values. `node` reads whatever there is, and `mistyped` tells what there is
instead of what was asked for.
-/

namespace Crosslink.Json

/-- A JSON value as it was read. -/
inductive Node where
  | null
  | boolean (value : Bool)
  | number (value : Number)
  | string (text : Text)
  | list (items : List Node)
  | object (members : List (Text × Node))

/-- The kind of a value as a message gives it, and the value itself if it has no parts. -/
def Node.describe : Node → Text
  | null => "null"
  | boolean value => "boolean `" ++ (if value then "true" else "false" : String) ++ "`"
  | number (.integer value) => "integer `" ++ (Number.integer value).text ++ "`"
  | number (.real negative size) => "floating point `" ++ (Number.real negative size).text ++ "`"
  | string text => "string " ++ Text.quoted text
  | list _ => "sequence"
  | object _ => "map"

namespace Reader

/-! ## Values without parts -/

/-- Read a value without parts. -/
def scalar : Reader Node := do
  match ← peek with
  | some 'n' =>
    word "null"
    return .null
  | some 't' =>
    word "true"
    return .boolean true
  | some 'f' =>
    word "false"
    return .boolean false
  | some '"' => return .string (← string)
  | some c =>
    if c = '-' || c.isDigit then return .number (← number) else failNext .expectedValue
  | none => failNext .eofValue

/-- Fail because there is something else than asked for. A list or an object is told by its bracket
alone, and anything else is read first. -/
def mistyped {α : Type} (expected : Text) : Reader α := do
  let found ← match ← peek with
    | some '[' => pure (.list [])
    | some '{' => pure (.object [])
    | _ => scalar
  fail (.invalidType found.describe expected)

/-! ## Lists and objects -/

/-- Go past an opening bracket. There must be fewer than `levels` levels of lists and objects. -/
def openLevel (levels : Nat) : Reader Unit := if levels ≤ 1 then failNext .tooDeep else pass 1

/-- Go on to the next item of a list; tells whether there is one. -/
def nextItem (isFirst : Bool) : Reader Bool := do
  match ← skipGap with
  | none => failNext .eofList
  | some c =>
    if c = ']' then return false
    else if isFirst then return true
    else if c = ',' then
      pass 1
      match ← skipGap with
      | none => failNext .eofValue
      | some d => if d = ']' then failNext .trailingComma else return true
    else failNext .expectedListEnd

/-- Go past the closing bracket of a list. -/
def closeList : Reader Unit := do
  match ← skipGap with
  | none => failNext .eofList
  | some c =>
    if c = ']' then pass 1
    else if c = ',' then
      pass 1
      failNext (if (← skipGap) = some ']' then .trailingComma else .trailingCharacters)
    else failNext .trailingCharacters

/-- Go on to the name of the next member of an object; tells whether there is one. -/
def nextMember (isFirst : Bool) : Reader Bool := do
  match ← skipGap with
  | none => failNext .eofObject
  | some c =>
    if c = '}' then return false
    else if isFirst then
      if c = '"' then return true else failNext .keyNotString
    else if c = ',' then
      pass 1
      match ← skipGap with
      | none => failNext .eofValue
      | some d =>
        if d = '"' then return true
        else failNext (if d = '}' then .trailingComma else .keyNotString)
    else failNext .expectedObjectEnd

/-- Read at most `fuel` more items of a list. -/
def itemsFrom {σ : Type} (item : σ → Reader σ) : Nat → Bool → σ → Reader σ
  | 0, _, s => return s
  | fuel + 1, isFirst, s => do
    if ← nextItem isFirst then itemsFrom item fuel false (← item s) else return s

/-- Read at most `fuel` more members of an object. -/
def membersFrom {σ : Type} (member : σ → Text → Reader σ) : Nat → Bool → σ → Reader σ
  | 0, _, s => return s
  | fuel + 1, isFirst, s => do
    if ← nextMember isFirst then
      let name ← string
      membersFrom member fuel false (← member s name)
    else return s

/-- Read a list from its bracket on, item by item. -/
def readList {σ : Type} (levels : Nat) (start : σ) (item : σ → Reader σ) : Reader σ := do
  openLevel levels
  let s ← itemsFrom item ((← get).rest.length + 1) true start
  closeList
  return s

/-- Read an object from its bracket on, member by member. Reading a member starts at its colon. -/
def readObject {σ : Type} (levels : Nat) (start : σ) (member : σ → Text → Reader σ) :
    Reader σ := do
  openLevel levels
  let s ← membersFrom member ((← get).rest.length + 1) true start
  pass 1
  return s

/-- Fail because of a member of the object at hand. The brace that closes the object counts as read
if nothing else comes first. -/
def failInObject {α : Type} (cause : Cause) : Reader α := do
  if (← skipGap) = some '}' then pass 1
  fail cause

/-! ## Whole values -/

/-- Read an object with any members. -/
def readMap {σ : Type} (levels : Nat) (start : σ) (member : σ → Text → Reader σ) :
    Reader σ := do
  match ← skipGap with
  | none => failNext .eofValue
  | some '{' => readObject levels start member
  | some _ => mistyped "a map"

/-- Read an object with known members, or the list of their values, which `items` reads. -/
def readRecord {σ : Type} (levels : Nat) (expected : Text) (items : Reader σ) (start : σ)
    (member : σ → Text → Reader σ) : Reader σ := do
  match ← skipGap with
  | none => failNext .eofValue
  | some '{' => readObject levels start member
  | some '[' =>
    openLevel levels
    let s ← items
    closeList
    return s
  | some _ => mistyped expected

/-- Read any value of fewer than `levels` levels. -/
def node : Nat → Reader Node
  | 0 => failNext .tooDeep
  | levels + 1 => do
    match ← skipGap with
    | some '[' =>
      let items ← readList (levels + 1) [] fun items => return (← node levels) :: items
      return .list items.reverse
    | some '{' =>
      let members ← readObject (levels + 1) [] fun members name => do
        colon
        return (name, ← node levels) :: members
      return .object members.reverse
    | _ => scalar

end Reader

end Crosslink.Json
