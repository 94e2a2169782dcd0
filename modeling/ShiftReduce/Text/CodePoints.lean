/-!
# Sets of code points

A set of characters given by a table of inclusive code point ranges in increasing order.
-/
namespace ShiftReduce.Text

/-- Whether a code point lies in one of the ranges. Later ranges lie higher, so the search ends at
the first one that begins above it. -/
def inRanges (point : Nat) : List (Nat × Nat) → Bool
  | [] => false
  | (first, last) :: rest =>
    if point < first then false else if point ≤ last then true else inRanges point rest

end ShiftReduce.Text
