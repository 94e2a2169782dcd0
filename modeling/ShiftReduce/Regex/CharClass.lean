import ShiftReduce.Text.CaseFolding
import ShiftReduce.Text.CharacterClass
import ShiftReduce.Text.CharSet

/-!
# Character classes of regular expressions

A class is built from ranges and named classes by set operations. Which characters it holds depends
on whether case matters: where it does not, the ranges hold the case variants of their characters
too. The named classes hold them in any case, and set operations keep it that way.
-/
namespace ShiftReduce.Regex

/-- The classes with a name of one letter. -/
inductive NamedClass where
  | digit
  | blank
  | word
deriving DecidableEq, Repr

/-- Decimal digits. -/
def digits : Text.CharSet := .ofPoints Text.digitRanges.toList

/-- White space. -/
def blanks : Text.CharSet := .ofPoints Text.blankRanges.toList

/-- Characters of words. -/
def wordCharacters : Text.CharSet := .ofPoints Text.wordRanges.toList

def NamedClass.set : NamedClass → Text.CharSet
  | digit => digits
  | blank => blanks
  | word => wordCharacters

/-- The written form of a set of characters. -/
inductive CharClass where
  /-- Ranges of characters, each with its last one. -/
  | ranges (rs : List (Char × Char))
  | named (kind : NamedClass)
  | complement (a : CharClass)
  | union (a b : CharClass)
  | intersection (a b : CharClass)
  | difference (a b : CharClass)
  | symmetricDifference (a b : CharClass)
deriving DecidableEq, Repr

namespace CharClass

/-- All characters. -/
def everything : CharClass := complement (ranges [])

def single (c : Char) : CharClass := ranges [(c, c)]

/-- The code points of some ranges, and their case variants if case does not matter. -/
def points (ignoreCase : Bool) (rs : List (Char × Char)) : List (Nat × Nat) :=
  let given := rs.map fun (first, last) => (first.toNat, last.toNat)
  if ignoreCase then
    given ++ given.flatMap fun (first, last) =>
      (Text.caseVariants first last).map fun point => (point, point)
  else given

/-- The characters of a class. -/
def set (ignoreCase : Bool) : CharClass → Text.CharSet
  | ranges rs => .ofPoints (points ignoreCase rs)
  | named kind => kind.set
  | complement a => (a.set ignoreCase).complement
  | union a b => (a.set ignoreCase).union (b.set ignoreCase)
  | intersection a b => (a.set ignoreCase).intersection (b.set ignoreCase)
  | difference a b => (a.set ignoreCase).difference (b.set ignoreCase)
  | symmetricDifference a b => (a.set ignoreCase).symmetricDifference (b.set ignoreCase)

end CharClass

end ShiftReduce.Regex
