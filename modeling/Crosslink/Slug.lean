import Crosslink.Text.Basic

/-!
# Slugs

A test described in a sentence is keyed by its slug: the ASCII letters, digits and underscores of
the sentence, with one underscore for every run of other characters between two of them.
-/

namespace Crosslink

/-- True for the characters a slug keeps: ASCII letters, digits and the underscore. -/
def isSlugChar (c : Char) : Bool := c.isAlphanum || c = '_'

/-- The slug of what is left of a description. `written` tells whether the slug has a character
yet, and `gap` whether characters were left out since the last one. -/
def slugFrom (written gap : Bool) : Text → Text
  | [] => []
  | c :: cs =>
    if isSlugChar c then
      if written && gap then '_' :: c :: slugFrom true false cs else c :: slugFrom true false cs
    else slugFrom written true cs

/-- The slug of a description. -/
def slug (text : Text) : Text := slugFrom false false text

end Crosslink
