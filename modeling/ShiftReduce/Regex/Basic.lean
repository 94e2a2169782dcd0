import ShiftReduce.Regex.CharClass

/-!
# Regular expressions

Expressions are matched from left to right with priorities: of two branches the first is preferred,
and a repetition prefers to go on, or to stop if it is lazy.
-/
namespace ShiftReduce

/-- Conditions on a place in a text. -/
inductive Regex.Assertion where
  | textStart
  | textEnd
  | startOf
  | lineEnd
  | wordBoundary
  | noWordBoundary
  | wordStart
  | wordEnd
deriving DecidableEq, Repr

/-- Regular expressions. -/
inductive Regex where
  | literal (text : List Char)
  /-- A character of a set. -/
  | one (set : Text.CharSet)
  | holds (a : Regex.Assertion)
  /-- A group that is counted. -/
  | captured (number : Nat) (r : Regex)
  /-- At least `min` and at most `max` times `r`, preferring more or, if lazy, less. -/
  | repeated (r : Regex) (min : Nat) (max : Option Nat) (isLazy : Bool)
  | sequence (factors : List Regex)
  /-- The first of the branches is preferred. -/
  | choice (branches : List Regex)
deriving BEq, Repr

namespace Regex

/-- Whether a condition holds between two neighbouring characters, `none` at either end. -/
def Assertion.test (before after : Option Char) : Assertion → Bool
  | textStart => before.isNone
  | textEnd => after.isNone
  | startOf => before.all (· = '\n')
  | lineEnd => after.all (· = '\n')
  | wordBoundary => before.any Text.isWordCharacter != after.any Text.isWordCharacter
  | noWordBoundary => before.any Text.isWordCharacter == after.any Text.isWordCharacter
  | wordStart => !before.any Text.isWordCharacter && after.any Text.isWordCharacter
  | wordEnd => before.any Text.isWordCharacter && !after.any Text.isWordCharacter

end Regex

end ShiftReduce
