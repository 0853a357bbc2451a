import Crosslink.Text.Blank
import Crosslink.Text.Basic

/-!
# Link targets

A target names a production class, or one method of it. Its canonical form is the class name alone
or `Class::method`; reading that form back drops blanks around it and one backslash before the
class.
-/

namespace Crosslink

/-- A production class or method, named exactly and with regard to case. -/
structure Target where
  /-- The fully qualified class name, without a leading backslash. -/
  className : Text
  /-- The method, or nothing when the whole class is meant. -/
  method : Option Text
  deriving DecidableEq, Repr

/-- Why a text is not the canonical form of a target. -/
inductive TargetError where
  | emptyClass (input : Text)
  | emptyMethod (input : Text)
  | tooManySeparators (input : Text)
  deriving DecidableEq, Repr

namespace TargetError

/-- The error in words. -/
def message : TargetError → Text
  | emptyClass input => "empty class name in link '" ++ input ++ "'"
  | emptyMethod input => "empty method name in link '" ++ input ++ "'"
  | tooManySeparators input => "too many '::' separators in link '" ++ input ++ "'"

end TargetError

/-- What stands between a class and its method, and between a test's container and its name. -/
def memberSeparator : Text := "::"

/-- A class name without one leading backslash. -/
def unrooted (className : Text) : Text := Text.dropOne '\\' className

namespace Target

/-- The target naming a whole class. -/
def ofClass (className : Text) : Target := ⟨unrooted className, none⟩

/-- The target naming one method. -/
def ofMethod (className method : Text) : Target := ⟨unrooted className, some method⟩

/-- True when the whole class is meant. -/
def isClass (t : Target) : Bool := t.method.isNone

/-- The class a target belongs to, as a target. -/
def owner (t : Target) : Target := ⟨t.className, none⟩

/-- The canonical form: `Class` or `Class::method`. -/
def canonical (t : Target) : Text :=
  match t.method with
  | some m => t.className ++ memberSeparator ++ m
  | none => t.className

/-- Read a canonical form. -/
def parse (input : Text) : Except TargetError Target :=
  let trimmed := Text.trim isBlank input
  match Text.splitFirst memberSeparator trimmed with
  | none =>
    if unrooted trimmed = [] then .error (.emptyClass input)
    else .ok ⟨unrooted trimmed, none⟩
  | some (className, method) =>
    if unrooted className = [] then .error (.emptyClass input)
    else if method = [] then .error (.emptyMethod input)
    else if Text.contains memberSeparator method then .error (.tooManySeparators input)
    else .ok ⟨unrooted className, some method⟩

/-- Targets are ordered by class, a class before its methods, and its methods by name. -/
instance : Ord Target := ⟨compareLex (compareOn Target.className) (compareOn Target.method)⟩

end Target

end Crosslink
