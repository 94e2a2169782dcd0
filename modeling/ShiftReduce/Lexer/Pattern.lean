import ShiftReduce.Regex.Engine

/-!
# Token patterns

A pattern is written out as a regular expression, which an engine can compile.
-/
namespace ShiftReduce

/-- The characters of some inclusive ranges. -/
structure CharRanges where
  ranges : List (Char × Char)
deriving DecidableEq, Repr

namespace CharRanges

def digits : CharRanges := ⟨[('0', '9')]⟩

def letters : CharRanges := ⟨[('a', 'z'), ('A', 'Z')]⟩

def blanks : CharRanges := ⟨[(' ', ' '), ('\t', '\t'), ('\r', '\r'), ('\n', '\n')]⟩

def contains (s : CharRanges) (c : Char) : Bool :=
  s.ranges.any fun (first, last) => first ≤ c && c ≤ last

end CharRanges

/-- What a token may look like. -/
inductive Pattern where
  | literal (text : String)
  | oneOf (set : CharRanges)
  | counted (pattern : Pattern) (min : Nat) (max : Option Nat)
  | regex (source : String)
  | any
deriving DecidableEq, Repr

namespace Pattern

/-- A character as a regular expression that matches only it. -/
def escapeChar (c : Char) : List Char := if Regex.isMeta c then ['\\', c] else [c]

/-- A range as a member of a bracketed class. -/
def rangeSource (first last : Char) : List Char :=
  if first = last then escapeChar first else escapeChar first ++ '-' :: escapeChar last

/-- A pattern as a regular expression. -/
def source : Pattern → List Char
  | literal text => text.toList.flatMap escapeChar
  | oneOf set => '[' :: set.ranges.flatMap (fun (first, last) => rangeSource first last) ++ [']']
  | counted pattern min max =>
    let upper := match max with
      | some max => (toString max).toList
      | none => []
    "(?:".toList ++ pattern.source ++ ")\x7b".toList ++ (toString min).toList ++ ',' :: upper ++
      ['\x7d']
  | regex text => "(?:".toList ++ text.toList ++ [')']
  | any => "(?s:.)".toList

end Pattern

end ShiftReduce
