import Crosslink.Json.Number

/-!
# Values that are passed over

A value that nobody asks for is only held against the shape of JSON. It may be of any depth, its
numbers of any size, and its strings need not stand for texts: an escape is as good as another.
-/

namespace Crosslink.Json

/-- What a bracket opens. -/
inductive Enclosure where
  | list
  | object
  deriving DecidableEq, Repr

namespace Enclosure

/-- The bracket that closes it. -/
def closer : Enclosure → Char
  | list => ']'
  | object => '}'

/-- What is wrong when the text ends inside. -/
def unfinished : Enclosure → Cause
  | list => .eofList
  | object => .eofObject

/-- What is wrong when something else follows one of its parts than a comma or its end. -/
def unseparated : Enclosure → Cause
  | list => .expectedListEnd
  | object => .expectedObjectEnd

end Enclosure

/-- What comes next in a value that is passed over. -/
inductive Expected where
  | value
  /-- The first part of what has just been opened, or its end. -/
  | first
  /-- Whatever follows a value. -/
  | next
  deriving DecidableEq, Repr

namespace Reader

/-- Pass over the rest of a string of at most `fuel` characters. -/
def passStringFrom : Nat → Reader Unit
  | 0 => fail .eofString
  | fuel + 1 => do
    match ← peek with
    | none => fail .eofString
    | some c =>
      if c = '"' then pass 1
      else if c = '\\' then
        pass 1
        match ← peek with
        | none => fail .eofString
        | some d =>
          if d = 'u' then
            pass 1
            let _ ← hex
          else if (lettered? d).isSome then pass 1
          else failNext .invalidEscape
        passStringFrom fuel
      else if c.toNat < 0x20 then fail .controlCharacter
      else
        pass 1
        passStringFrom fuel

/-- Pass over a string from its opening quote on. -/
def passString : Reader Unit := do
  let c ← get
  pass 1
  passStringFrom c.rest.length

/-- Pass over a value without parts. -/
def passScalar : Reader Unit := do
  match ← peek with
  | some 'n' => word "null"
  | some 't' => word "true"
  | some 'f' => word "false"
  | some '"' => passString
  | some c =>
    if c = '-' || c.isDigit then
      let _ ← numeral .invalidNumber
    else failNext .expectedValue
  | none => failNext .eofValue

/-- Pass over the name of a member and its colon. -/
def passName : Reader Unit := do
  match ← skipGap with
  | none => failNext .eofObject
  | some '"' =>
    passString
    colon
  | some _ => failNext .keyNotString

/-- Pass over what is left of a value, in at most `fuel` steps. What is open is listed from the
inside out. -/
def passFrom : Nat → Expected → List Enclosure → Reader Unit
  | 0, _, _ => return
  | fuel + 1, .value, outer => do
    match ← skipGap with
    | some '[' =>
      pass 1
      passFrom fuel .first (.list :: outer)
    | some '{' =>
      pass 1
      passFrom fuel .first (.object :: outer)
    | _ =>
      passScalar
      passFrom fuel .next outer
  | _ + 1, _, [] => return
  | fuel + 1, expected, inner :: outer => do
    match ← skipGap with
    | none => failNext inner.unfinished
    | some c =>
      if c = inner.closer then
        pass 1
        passFrom fuel .next outer
      else
        if expected = .next then
          if c = ',' then pass 1 else failNext inner.unseparated
        if inner = .object then passName
        passFrom fuel .value (inner :: outer)

/-- Pass over a value. Every other step at the latest goes past a character. -/
def passValue : Reader Unit := do
  passFrom (2 * (← get).rest.length + 3) .value []

end Reader

end Crosslink.Json
