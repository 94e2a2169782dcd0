/-!
# Sets of characters

All characters in order have ranks without a gap. A set is kept as the ranks at which membership
changes, in increasing order: outside before the first of them, inside from there to the second,
outside again from there on. Every set has one such form, so equal sets are equal as data. Set
operations are sweeps over the changes of both operands.
-/
namespace ShiftReduce.Text

/-- Number of characters. -/
def characterCount : Nat := 0x10F800

/-- The position of a code point among the characters. The surrogates are none. -/
def rank (point : Nat) : Nat := if point < 0xD800 then point else point - 0x800

/-- The code point of a position. -/
def unrank (rank : Nat) : Nat := if rank < 0xD800 then rank else rank + 0x800

/-- A set of characters by the ranks at which it begins and ends. -/
structure CharSet where
  bounds : List Nat
deriving DecidableEq, Repr

namespace CharSet

/-- Whether a rank is inside, `inside` telling about the ranks before the first of the bounds. -/
def side (inside : Bool) (rank : Nat) : List Nat → Bool
  | [] => inside
  | bound :: rest => if rank < bound then inside else side (!inside) rank rest

/-- Starting on the other side ends on the other side. -/
theorem side_not (inside : Bool) (rank : Nat) (bounds : List Nat) :
    side (!inside) rank bounds = !side inside rank bounds := by
  induction bounds generalizing inside with
  | nil => rfl
  | cons bound rest ih =>
    simp only [side]
    split
    · rfl
    · exact ih (!inside)

def contains (s : CharSet) (c : Char) : Bool := side false (rank c.toNat) s.bounds

/-! ## Building -/

def empty : CharSet := ⟨[]⟩

/-- Put a bound in front of larger ones. A set that changes twice at one rank does not change. -/
def toggle (bounds : List Nat) (rank : Nat) : List Nat :=
  match bounds with
  | bound :: rest => if bound = rank then rest else rank :: bounds
  | [] => [rank]

/-- Cover the ranks of `range`, its end excluded, where `covered` holds the bounds so far in
decreasing order and no earlier range begins behind this one. -/
def cover (covered : List Nat) (range : Nat × Nat) : List Nat :=
  match covered with
  | last :: earlier =>
    -- a range that begins inside the last one or right behind it makes that one longer
    if range.1 ≤ last then max last range.2 :: earlier else range.2 :: range.1 :: covered
  | [] => [range.2, range.1]

/-- The union of ranges of ranks, each with its end excluded. -/
def ofRanks (ranges : List (Nat × Nat)) : CharSet :=
  let covered := (ranges.mergeSort fun a b => a.1 ≤ b.1).foldl cover []
  -- a set that holds the last character never ends
  ⟨(covered.dropWhile (characterCount ≤ ·)).reverse⟩

/-- The union of ranges of code points, each with its last one. -/
def ofPoints (ranges : List (Nat × Nat)) : CharSet :=
  ofRanks (ranges.map fun (first, last) => (rank first, rank last + 1))

def single (c : Char) : CharSet := ofPoints [(c.toNat, c.toNat)]

/-! ## Set operations -/

def complement (s : CharSet) : CharSet := ⟨toggle s.bounds 0⟩

theorem contains_complement (s : CharSet) (c : Char) :
    s.complement.contains c = !s.contains c := by
  rcases s with ⟨bounds⟩
  cases bounds with
  | nil => simp [complement, toggle, contains, side]
  | cons bound rest =>
    simp only [complement, toggle, contains]
    split
    · next zero =>
      have opposite := side_not true (rank c.toNat) rest
      simp only [Bool.not_true] at opposite
      simp [side, zero, opposite]
    · have opposite := side_not false (rank c.toNat) (bound :: rest)
      simp only [Bool.not_false] at opposite
      simpa [side] using opposite

/-- Where a sweep over two sets has come: whether it is inside each of them, and the bounds of the
result so far in decreasing order. -/
structure Sweep where
  inLeft : Bool
  inRight : Bool
  bounds : List Nat

/-- Pass a bound of one of the sets. -/
def Sweep.pass (f : Bool → Bool → Bool) (s : Sweep) (bound : Nat × Bool) : Sweep :=
  let inLeft := if bound.2 then s.inLeft else !s.inLeft
  let inRight := if bound.2 then !s.inRight else s.inRight
  let changed := f inLeft inRight != f s.inLeft s.inRight
  ⟨inLeft, inRight, if changed then toggle s.bounds bound.1 else s.bounds⟩

/-- The characters whose membership in two sets `f` accepts. A character in neither of them is not
accepted. -/
def combine (f : Bool → Bool → Bool) (s t : CharSet) : CharSet :=
  let bounds := (s.bounds.map (·, false)).merge (t.bounds.map (·, true)) fun a b => a.1 ≤ b.1
  ⟨(bounds.foldl (Sweep.pass f) ⟨false, false, []⟩).bounds.reverse⟩

def union : CharSet → CharSet → CharSet := combine fun a b => a || b

def intersection : CharSet → CharSet → CharSet := combine fun a b => a && b

def difference : CharSet → CharSet → CharSet := combine fun a b => a && !b

def symmetricDifference : CharSet → CharSet → CharSet := combine fun a b => a != b

/-! ## Reading off -/

/-- The ranges of ranks between some bounds, each with its end excluded, behind those `found`
already, which stand in decreasing order. -/
def rangesBehind (found : List (Nat × Nat)) : List Nat → List (Nat × Nat)
  | [] => found.reverse
  | [first] => ((first, characterCount) :: found).reverse
  | first :: last :: rest => rangesBehind ((first, last) :: found) rest

/-- The ranges of the set, as few as possible, each with its end excluded. -/
def ranges (s : CharSet) : List (Nat × Nat) := rangesBehind [] s.bounds

/-- The only member of a set. -/
def member? (s : CharSet) : Option Char :=
  match s.bounds with
  | [first, last] => if first + 1 = last then some (Char.ofNat (unrank first)) else none
  | [first] => if first + 1 = characterCount then some (Char.ofNat (unrank first)) else none
  | _ => none

end CharSet

end ShiftReduce.Text
