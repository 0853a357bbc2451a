/-!
# Texts

A text is the list of its characters. Every offset in this library counts the UTF-8 bytes that
stand before a place, so this module measures a text in bytes (`width`), cuts it at a byte offset
(`before`, `after`, `slice`) and says which offsets fall between two characters (`isBoundary`).
The rest are the ways of searching, splitting and trimming that the other modules share.

## Main statements

* `before_append_after`: cutting a text loses nothing.
* `width_append`: widths add up.
-/

namespace Crosslink

/-- A text is the list of its characters. -/
abbrev Text := List Char

instance : Coe String Text := ⟨String.toList⟩

namespace Text

/-! ## Measuring and cutting -/

/-- The number of UTF-8 bytes of a text. -/
def width : Text → Nat
  | [] => 0
  | c :: cs => c.utf8Size + width cs

/-- The characters that end within the first `n` bytes. -/
def before (n : Nat) : Text → Text
  | [] => []
  | c :: cs => if c.utf8Size ≤ n then c :: before (n - c.utf8Size) cs else []

/-- What is left of a text when the characters ending within its first `n` bytes are dropped. -/
def after (n : Nat) : Text → Text
  | [] => []
  | c :: cs => if c.utf8Size ≤ n then after (n - c.utf8Size) cs else c :: cs

/-- The text from byte `start` up to byte `stop`. -/
def slice (start stop : Nat) (text : Text) : Text :=
  before (stop - start) (after start text)

/-- True when `n` bytes from the start one character ends and the next begins, ends of the text
included. -/
def isBoundary : Nat → Text → Bool
  | 0, _ => true
  | _ + 1, [] => false
  | n + 1, c :: cs => c.utf8Size ≤ n + 1 && isBoundary (n + 1 - c.utf8Size) cs

theorem before_append_after (n : Nat) (text : Text) : before n text ++ after n text = text := by
  induction text generalizing n with
  | nil => rfl
  | cons c cs ih =>
    by_cases h : c.utf8Size ≤ n
    · simp [before, after, h, ih]
    · simp [before, after, h]

@[simp] theorem width_nil : width [] = 0 := rfl

@[simp] theorem width_cons (c : Char) (cs : Text) : width (c :: cs) = c.utf8Size + width cs := rfl

@[simp] theorem width_append (a b : Text) : width (a ++ b) = width a + width b := by
  induction a with
  | nil => simp
  | cons c cs ih => simp [ih, Nat.add_assoc]

/-! ## Searching and splitting -/

/-- What stands before and after the first occurrence of `sep`. -/
def splitFirst (sep : Text) : Text → Option (Text × Text)
  | [] => if sep = [] then some ([], []) else none
  | c :: cs =>
    if sep.isPrefixOf (c :: cs) then some ([], (c :: cs).drop sep.length)
    else (splitFirst sep cs).map fun (l, r) => (c :: l, r)

/-- A split text is its halves with the separator between them. -/
theorem eq_append_of_splitFirst {sep l r t : Text} (h : splitFirst sep t = some (l, r)) :
    t = l ++ (sep ++ r) := by
  induction t generalizing l with
  | nil =>
    rw [splitFirst] at h
    split at h
    · rename_i hsep
      simp only [Option.some.injEq, Prod.mk.injEq] at h
      obtain ⟨rfl, rfl⟩ := h
      simp [hsep]
    · cases h
  | cons c cs ih =>
    rw [splitFirst] at h
    split at h
    · rename_i hbegins
      obtain ⟨rest, hrest⟩ := List.isPrefixOf_iff_prefix.mp hbegins
      simp only [Option.some.injEq, Prod.mk.injEq] at h
      obtain ⟨rfl, rfl⟩ := h
      rw [← hrest, List.drop_left, List.nil_append]
    · obtain ⟨⟨l', r'⟩, hsplit, heq⟩ := Option.map_eq_some_iff.mp h
      simp only [Prod.mk.injEq] at heq
      obtain ⟨rfl, rfl⟩ := heq
      rw [ih hsplit, List.cons_append]

/-- True when `part` occurs in the text. -/
def contains (part text : Text) : Bool := (splitFirst part text).isSome

/-- What stands before and after the last occurrence of `sep`. -/
def splitLast (sep : Text) : Text → Option (Text × Text)
  | [] => if sep = [] then some ([], []) else none
  | c :: cs =>
    match splitLast sep cs with
    | some (l, r) => some (c :: l, r)
    | none => if sep.isPrefixOf (c :: cs) then some ([], (c :: cs).drop sep.length) else none

/-- What stands after the last occurrence of `sep`, or the whole text when there is none. -/
def lastSegment (sep text : Text) : Text :=
  match splitLast sep text with
  | some (_, r) => r
  | none => text

/-- The pieces of a text between the occurrences of the character `sep`. -/
def segments (sep : Char) : Text → List Text
  | [] => [[]]
  | c :: cs =>
    if c = sep then [] :: segments sep cs
    else match segments sep cs with
      | [] => [[c]]
      | s :: rest => (c :: s) :: rest

/-- The lines of a text, each with the line feed that ends it. -/
def lines : Text → List Text
  | [] => []
  | c :: cs =>
    if c = '\n' then [c] :: lines cs
    else match lines cs with
      | [] => [[c]]
      | l :: rest => (c :: l) :: rest

/-- The pieces put together with `sep` between neighbours. -/
def join (sep : Text) (pieces : List Text) : Text := List.intercalate sep pieces

/-! ## Trimming and replacing -/

/-- The text without the characters satisfying `p` at its end. -/
def trimEnd (p : Char → Bool) (text : Text) : Text := (text.reverse.dropWhile p).reverse

/-- The text without the characters satisfying `p` at either end. -/
def trim (p : Char → Bool) (text : Text) : Text := trimEnd p (text.dropWhile p)

/-- The text with every occurrence of the character `c` replaced by `substitute`. -/
def replace (c : Char) (substitute text : Text) : Text :=
  text.flatMap fun d => if d = c then substitute else [d]

/-- The text without one leading `c`. -/
def dropOne (c : Char) : Text → Text
  | [] => []
  | d :: ds => if d = c then ds else d :: ds

/-- The text without `part` at its end, if it ends so. -/
def dropSuffix (part text : Text) : Text :=
  if part.isSuffixOf text then text.take (text.length - part.length) else text

/-! ## Comparing -/

/-- The text with its ASCII capitals made small. -/
def lower (text : Text) : Text := text.map Char.toLower

/-- Equality that ignores the case of ASCII letters. -/
def sameLetters (a b : Text) : Bool := lower a == lower b

/-- The decimal digits of a number. -/
def ofNat (n : Nat) : Text := Nat.toDigits 10 n

end Text

end Crosslink
