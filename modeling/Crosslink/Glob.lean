import Crosslink.Digest

/-!
# Glob patterns

Patterns select files by their path. A star and a question mark match any bytes, slashes included;
`**/` at the start matches any directories or none, `/**/` one slash or directories between two, and
`/**` at the end what is inside a directory; `[a-z]` and `[!a]` match one byte in or out of a class,
`{a,b}` any of its alternatives, and a backslash takes the meaning from the character after it. A
pattern matches a path as a whole, and with regard to case.
-/

namespace Crosslink

namespace Glob

/-- What a pattern matches piece by piece. -/
inductive Atom where
  | literal (c : Char)
  /-- Any one byte. -/
  | any
  /-- Any bytes. -/
  | star
  /-- Any directories in front of a path. -/
  | leading
  /-- Whatever a directory holds. -/
  | trailing
  /-- One slash, or directories between two. -/
  | between
  /-- One byte in some of the ranges, or in none of them. -/
  | oneOf (negated : Bool) (ranges : List (Char × Char))
  deriving DecidableEq, Repr

/-- One element of a pattern. -/
inductive Element where
  | atom (a : Atom)
  | either (alternatives : List (List Element))
  deriving Repr

/-- Why a text is no pattern. -/
inductive Defect where
  | unclosedClass
  | invalidRange (low high : Char)
  | unclosedAlternatives
  | unopenedAlternatives
  | danglingEscape
  deriving DecidableEq, Repr

/-- The defect in words. -/
def Defect.message : Defect → Text
  | unclosedClass => "unclosed character class; missing ']'"
  | invalidRange low high => "invalid range; '" ++ [low] ++ "' > '" ++ [high] ++ "'"
  | unclosedAlternatives =>
    "unclosed alternate group; missing '\x7d' (maybe escape '\x7b' with '[\x7b]'?)"
  | unopenedAlternatives =>
    "unopened alternate group; missing '\x7b' (maybe escape '\x7d' with '[\x7d]'?)"
  | danglingEscape => "dangling '\\'"

/-! ## Reading -/

/-- The ranges of a class read so far, last first, and whether a range is waiting for its end. -/
structure ClassReading where
  ranges : List (Char × Char) := []
  first : Bool := true
  inRange : Bool := false

/-- Take in one character of a class that does not close it. -/
def ClassReading.step (r : ClassReading) (c : Char) : Except Defect ClassReading :=
  let extend : Except Defect ClassReading := match r.ranges with
    | [] => .ok { r with ranges := [(c, c)], first := false, inRange := false }
    | (low, _) :: rest =>
      if c < low then .error (.invalidRange low c)
      else .ok { ranges := (low, c) :: rest, first := false, inRange := false }
  if r.inRange then extend
  else if c = '-' && !r.first then .ok { r with inRange := true }
  else .ok { ranges := (c, c) :: r.ranges, first := false, inRange := false }

/-- The ranges of a class, in order. A range without an end is its start and a dash. -/
def ClassReading.finish (r : ClassReading) : List (Char × Char) :=
  (if r.inRange then ('-', '-') :: r.ranges else r.ranges).reverse

/-- Read the rest of a class; the result holds its ranges and what follows it. -/
def readClass (r : ClassReading) : Text → Except Defect (List (Char × Char) × Text)
  | [] => .error .unclosedClass
  | c :: cs =>
    if c = ']' && !r.first then .ok (r.finish, cs)
    else do readClass (← r.step c) cs

/-- The alternatives being read, innermost group first: for each open group its earlier
alternatives, last first, and the elements before it, last first. -/
structure Frame where
  earlier : List (List Element)
  outer : List Element

/-- What has been read of a pattern: the elements of the alternative at hand, last first, the open
groups, and the character read last. -/
structure Reading where
  elements : List Element := []
  frames : List Frame := []
  last : Option Char := none

/-- Add an atom. -/
def Reading.push (r : Reading) (a : Atom) : Reading :=
  { r with elements := .atom a :: r.elements }

/-- Take in two stars, `before` being the character before them and `rest` what follows; the result
holds how many characters of `rest` were taken along. -/
def Reading.doubleStar (r : Reading) (before : Option Char) (rest : Text) : Reading × Nat :=
  let plain := ((r.push .star).push .star, 0)
  let nested := !r.frames.isEmpty
  match r.elements with
  | [] =>
    match rest with
    | [] => (r.push .leading, 0)
    | '/' :: _ => (r.push .leading, 1)
    | _ => plain
  | e :: es =>
    if before ≠ some '/' && !(nested && (before = some ',' || before = some '{')) then plain
    else
      let place := fun (atEnd : Bool) (taken : Nat) =>
        let a := match e with
          | .atom .leading => Atom.leading
          | .atom .trailing => Atom.trailing
          | _ => if atEnd then Atom.trailing else Atom.between
        ({ r with elements := .atom a :: es }, taken)
      match rest with
      | [] => place true 0
      | c :: _ =>
        if nested && (c = ',' || c = '}') then place true 0
        else if c = '/' then place false 1
        else plain

/-- Read a pattern from the text left, `fuel` bounding the number of its elements. -/
def readFrom : Nat → Reading → Text → Except Defect (List Element)
  | 0, r, _ => .ok r.elements.reverse
  | _ + 1, r, [] =>
    if r.frames.isEmpty then .ok r.elements.reverse else .error .unclosedAlternatives
  | fuel + 1, r, c :: cs =>
    let go := fun (r : Reading) (seen : Char) (rest : Text) =>
      readFrom fuel { r with last := some seen } rest
    if c = '?' then go (r.push .any) c cs
    else if c = '*' then
      match cs with
      | '*' :: rest =>
        let (r', taken) := r.doubleStar r.last rest
        go r' (if taken = 0 then '*' else '/') (rest.drop taken)
      | _ => go (r.push .star) c cs
    else if c = '[' then
      let negated := cs.head? = some '!' || cs.head? = some '^'
      match readClass {} (if negated then cs.drop 1 else cs) with
      | .ok (ranges, rest) => go (r.push (.oneOf negated ranges)) ']' rest
      | .error e => .error e
    else if c = '{' then
      go { r with elements := [], frames := ⟨[], r.elements⟩ :: r.frames } c cs
    else if c = '}' then
      match r.frames with
      | [] => .error .unopenedAlternatives
      | f :: frames =>
        let alternatives := (r.elements :: f.earlier).reverse.map List.reverse
        go { r with elements := .either alternatives :: f.outer, frames } c cs
    else if c = ',' then
      match r.frames with
      | [] => go (r.push (.literal c)) c cs
      | f :: frames =>
        let f := { f with earlier := r.elements :: f.earlier }
        go { r with elements := [], frames := f :: frames } c cs
    else if c = '\\' then
      match cs with
      | [] => .error .danglingEscape
      | d :: ds => go (r.push (.literal d)) d ds
    else go (r.push (.literal c)) c cs

/-! ## Matching

A pattern is followed along a path from front to back. What is kept is the set of places that can be
reached, as one mark for every byte of the path and one for its end; each piece of the pattern
carries the marks on. So the work is the length of the pattern times that of the path.
-/

/-- The ranges of bytes that a range of characters stands for: the last byte of its low end to the
first of its high end, and every other byte of the two by itself. -/
def byteRanges (range : Char × Char) : List (UInt8 × UInt8) :=
  let low := String.utf8EncodeChar range.1
  let high := String.utf8EncodeChar range.2
  if range.1 = range.2 then low.map fun b => (b, b)
  else (low.dropLast ++ high.tail).map (fun b => (b, b)) ++ low.getLast?.toList.zip high

/-- The byte of a slash. -/
def slash : UInt8 := 0x2f

/-- The marks one byte on, behind the bytes that are right; `here` is the mark at the front. -/
def carryByte (right : UInt8 → Bool) (here : Bool) : List Bool → List UInt8 → List Bool
  | m :: marks, b :: bytes => here :: carryByte right (m && right b) marks bytes
  | _, _ => [here]

/-- The marks from the first one on; `before` tells whether there was one. -/
def carryAnywhere (before : Bool) : List Bool → List Bool
  | [] => []
  | m :: marks => (before || m) :: carryAnywhere (before || m) marks

/-- The marks and every place behind a later slash; `before` tells whether there was a mark, and
`here` whether the place at the front is one behind a slash. -/
def carryDirectories (before here : Bool) : List Bool → List UInt8 → List Bool
  | [], _ => []
  | m :: marks, [] => (here || m) :: marks
  | m :: marks, b :: bytes =>
    (here || m) :: carryDirectories (before || m) ((before || m) && b = slash) marks bytes

/-- The marks behind an atom. -/
def Atom.carry (a : Atom) (bytes : List UInt8) (marks : List Bool) : List Bool :=
  match a with
  | literal c =>
    (String.utf8EncodeChar c).foldl (fun marks b => carryByte (· = b) false marks bytes) marks
  | any => carryByte (fun _ => true) false marks bytes
  | star => carryAnywhere false marks
  | leading => carryDirectories false false marks bytes
  | trailing => carryAnywhere false (carryByte (· = slash) false marks bytes)
  | between => carryDirectories false false (carryByte (· = slash) false marks bytes) bytes
  | oneOf negated ranges =>
    let inside := ranges.flatMap byteRanges
    carryByte (fun b => (inside.any fun (low, high) => low ≤ b && b ≤ high) ≠ negated) false
      marks bytes

mutual

/-- True for an element that is nothing but alternatives without an atom. -/
def Element.isBlank : Element → Bool
  | .atom _ => false
  | .either alternatives => areAllBlank alternatives

/-- True when elements hold no atom. -/
def areBlank : List Element → Bool
  | [] => true
  | e :: es => e.isBlank && areBlank es

/-- True when no alternative holds an atom. -/
def areAllBlank : List (List Element) → Bool
  | [] => true
  | alternative :: rest => areBlank alternative && areAllBlank rest

end

mutual

/-- The marks behind an element. A blank alternative counts only when all of them are. -/
def Element.carry (bytes : List UInt8) (marks : List Bool) : Element → List Bool
  | .atom a => a.carry bytes marks
  | .either alternatives =>
    if areAllBlank alternatives then marks else carryEach bytes marks alternatives

/-- The marks behind elements, one after the other. -/
def carryAll (bytes : List UInt8) (marks : List Bool) : List Element → List Bool
  | [] => marks
  | e :: es => carryAll bytes (e.carry bytes marks) es

/-- The marks behind any of the alternatives that are not blank. -/
def carryEach (bytes : List UInt8) (marks : List Bool) : List (List Element) → List Bool
  | [] => marks.map fun _ => false
  | alternative :: rest =>
    let later := carryEach bytes marks rest
    if areBlank alternative then later
    else List.zipWith (· || ·) (carryAll bytes marks alternative) later

end

/-! ## Forms -/

/-- What a pattern asks of a path. -/
inductive Form where
  /-- A text at its start or at its end, or one that is all of it. -/
  | fixed
  /-- The name of its file or the extension of that, whatever directories are in front. -/
  | fileName
  /-- An extension of its file and more. -/
  | extension
  /-- Anything else. -/
  | general
  deriving DecidableEq, Repr

/-- The character that an element stands for, if it is one. -/
def Element.literal? : Element → Option Char
  | .atom (.literal c) => some c
  | _ => none

/-- The characters at the end of elements, last first. -/
def endLiterals (elements : List Element) : Text :=
  (elements.reverse.map Element.literal?).takeWhile Option.isSome |>.filterMap id

/-- True for a text with anything behind it, or with what a directory of that name holds. -/
def isOpenEnded (elements : List Element) : Bool :=
  match elements.reverse with
  | .atom .trailing :: before => before.all (·.literal?.isSome)
  | .atom .star :: before => !before.isEmpty && before.all (·.literal?.isSome)
  | _ => false

/-- What elements ask of a path. -/
def formOf (elements : List Element) : Form :=
  let (nested, rest) := match elements with
    | .atom .leading :: rest => (true, rest)
    | _ => (false, elements)
  let (starred, rest) := match rest with
    | .atom .star :: rest => (true, rest)
    | _ => (false, rest)
  let ending := (endLiterals rest).reverse
  if ending.length < rest.length then
    if isOpenEnded elements then .fixed
    else if (endLiterals rest).takeWhile (· ≠ '/') |>.contains '.' then .extension
    else .general
  else if starred then
    if ending.head? = some '.' && !ending.tail.contains '.' && !ending.contains '/' then .fileName
    else if ending = [] ∨ ending = ['/'] then .general
    else .fixed
  else if ending = [] then .general
  else if nested && !ending.contains '/' then .fileName
  else .fixed

/-- True for forms that look at the name of the file. -/
def Form.namesFile : Form → Bool
  | fileName | extension => true
  | fixed | general => false

end Glob

/-- A pattern: the elements that have to match one after the other. -/
structure Glob where
  elements : List Glob.Element

namespace Glob

/-- Read a pattern. A pattern of two stars alone matches everything. -/
def parse (pattern : Text) : Except Defect Glob := do
  match ← readFrom (pattern.length + 1) {} pattern with
  | [.atom .leading] => return ⟨[.atom .star]⟩
  | elements => return ⟨elements⟩

/-- What the pattern asks of a path. -/
def form (g : Glob) : Form := formOf g.elements

/-- True when the pattern matches the whole path. A path that ends in two dots names no file, so
that a pattern which names one does not match it. -/
def isMatch (g : Glob) (path : Text) : Bool :=
  let bytes := Digest.utf8 path
  let reached := carryAll bytes (true :: bytes.map fun _ => false) g.elements
  reached.getLastD false && !(g.form.namesFile && Text.lastSegment "/" path = "..")

/-- Read several patterns. The error is the first pattern that is none, with its defect. -/
def parseAll (patterns : List Text) : Except (Text × Defect) (List Glob) :=
  patterns.mapM fun p => (parse p).mapError fun d => (p, d)

/-- True when one of the patterns matches the whole path. -/
def anyMatch (globs : List Glob) (path : Text) : Bool := globs.any (·.isMatch path)

end Glob

end Crosslink
