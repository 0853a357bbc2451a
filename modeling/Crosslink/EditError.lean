import Crosslink.TestCase
import Crosslink.Splice
import Crosslink.Source.Token

/-!
# Edits that cannot be made

The ways in which a change of declarations can fail, whatever their style.
-/

namespace Crosslink

/-- Why declarations cannot be changed. -/
inductive EditError where
  /-- The test is not in the text. -/
  | testNotFound (name : Text)
  /-- The production method is not in the text. -/
  | methodNotFound (method : Text)
  /-- The text cannot be read. -/
  | malformed (error : SyntaxError)
  /-- A target is not given in canonical form. -/
  | invalidTarget (error : TargetError)
  /-- The changes touch the same bytes. -/
  | conflict (error : SpliceError)
  /-- The framework does not write tests of this style. -/
  | unsupported (framework : Text) (style : Text)
  deriving DecidableEq, Repr

namespace EditError

/-- The error in words. -/
def message : EditError → Text
  | testNotFound name => "test '" ++ name ++ "' not found in source"
  | methodNotFound method => "method '" ++ method ++ "' not found in source"
  | malformed e => e.message
  | invalidTarget e => "invalid link identifier: " ++ e.message
  | conflict e => e.message
  | unsupported framework style =>
    "modifier '" ++ framework ++ "' does not support " ++ style ++ " tests"

end EditError

theorem eq_ok_of_toOption {ε α : Type} {x : Except ε α} {a : α} (h : x.toOption = some a) : x = .ok a := by
  cases x with
  | error e => cases h
  | ok b => exact congrArg Except.ok (Option.some.inj h)

/-- Carry out the splices of an edit. -/
def applyEdit (source : Text) (splices : List Splice) : Except EditError Text :=
  (Splice.apply source splices).mapError .conflict

/-- Read the targets of an edit. -/
def parseTargets (canonicals : List Text) : Except EditError (List Target) :=
  (canonicals.mapM Target.parse).mapError .invalidTarget

end Crosslink
