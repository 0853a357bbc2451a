import Crosslink.Text.Blank
import Crosslink.Text.Basic

/-!
# Which style a test file is written in

Test files of both styles have the same names, so they are told apart by what they hold: a file with
a line that declares a class is written in attribute lists, any other in fluent chains. The line is
looked for in the bare text, before anything is read of it: between blanks, at the start of a line,
any modifiers, the word `class`, and a word that starts with a letter or an underscore.
-/

namespace Crosslink.Ownership

/-- A word of a text, which blanks separate. -/
structure Word where
  text : Text
  /-- True when only blanks stand before the word on its line. -/
  first : Bool
  deriving DecidableEq, Repr

/-- The words of a text; `first` tells whether one here would be the first on its line. -/
def words (first : Bool) : Text → List Word
  | [] => []
  | c :: cs =>
    if isBlank c then words (first || c = '\n') cs
    else
      ⟨c :: cs.takeWhile (!isBlank ·), first⟩ :: words false (cs.dropWhile (!isBlank ·))
termination_by text => text.length
decreasing_by
  · simp
  · have := (List.dropWhile_sublist (fun c => !isBlank c) (l := cs)).length_le
    simp only [List.length_cons]
    omega

/-- The letter that stands for a character when case says nothing. The long s and the Kelvin sign
are the only characters beyond ASCII that stand for ASCII letters. -/
def foldLetter (c : Char) : Char :=
  if c = '\u017f' then 's' else if c = '\u212a' then 'k' else c.toLower

/-- True when a word is written with these letters, whatever their case. -/
def isWord (word text : Text) : Bool := text.map foldLetter == word

/-- True for the words that may stand before `class`. -/
def isModifier (text : Text) : Bool :=
  isWord "abstract" text || isWord "final" text || isWord "readonly" text

/-- True when a word starts as a class name does in such a line. -/
def startsClassName : Text → Bool
  | c :: _ => (foldLetter c).isAlpha || c = '_'
  | [] => false

/-- True when a class declaration begins at one of the words that are first on their line: between
it and the word `class` there are only modifiers. `isOpen` tells whether a word before is first on
its line and has had only modifiers after it. -/
def anyBeginsClass (isOpen : Bool) : List Word → Bool
  | [] => false
  | w :: rest =>
    let isOpen := isOpen || w.first
    if isModifier w.text then anyBeginsClass isOpen rest
    else
      (isOpen && isWord "class" w.text && rest.head?.any (startsClassName ·.text))
        || anyBeginsClass false rest

/-- True when some line of a text begins a class declaration. -/
def hasClassLine (source : Text) : Bool := anyBeginsClass false (words true source)

end Crosslink.Ownership
