import ShiftReduce.Regex.Program
import Std.Data.TreeSet

/-!
# Matching

A program runs on a text by following all ways to match at once, most preferred first. At each place
of the text every instruction is visited at most once, on the most preferred way that leads to it;
that also ends every loop that reads nothing. Ways less preferred than a match are given up.
-/
namespace ShiftReduce.Regex.Program

/-- The readers that the ways to match have come to, most preferred first, and whether the way next
in preference has matched all of the expression. -/
structure Frontier where
  readers : List (Text.CharSet × Nat)
  isMatch : Bool

/-- Follow the ways that begin at some instructions, between two neighbouring characters, as far as
they lead without reading. `readers` holds those already come to, last first. -/
def follow (p : Program) (before after : Option Char) :
    Nat → List Nat → Std.TreeSet Nat → List (Text.CharSet × Nat) → Frontier
  | _, [], _, readers => ⟨readers.reverse, false⟩
  | 0, _ :: _, _, readers => ⟨readers.reverse, false⟩
  | budget + 1, place :: places, visited, readers =>
    if visited.contains place then p.follow before after budget places visited readers
    else
      match p.instructions[place]? with
      | some (.read set next) =>
        p.follow before after budget places (visited.insert place) ((set, next) :: readers)
      | some (.check a next) =>
        let places := if a.test before after then next :: places else places
        p.follow before after budget places (visited.insert place) readers
      | some (.fork preferred other) =>
        p.follow before after budget (preferred :: other :: places) (visited.insert place) readers
      | some (.jump next) =>
        p.follow before after budget (next :: places) (visited.insert place) readers
      -- the places left are less preferred than this match
      | none => ⟨readers.reverse, true⟩

/-- Where the ways to match have come to. Every instruction adds at most two places to visit. -/
def frontier (p : Program) (before after : Option Char) (places : List Nat) : Frontier :=
  p.follow before after (places.length + 2 * p.size) places .empty []

/-- Match on from some places. `count` characters have been read; `best` is the length of the match
found so far, which every place is preferred to. -/
def run (p : Program) (before : Option Char) (places : List Nat) (count : Nat) (best : Option Nat)
    (rest : List Char) : Option Nat :=
  let found := p.frontier before rest.head? places
  let best := if found.isMatch then some count else best
  match rest with
  | [] => best
  | c :: rest =>
    match found.readers.filterMap fun (set, next) => if set.contains c then some next else none with
    | [] => best
    | places => run p (some c) places (count + 1) best rest

/-- Look for the leftmost match behind `skipped` characters, and measure up to its end. -/
def search (p : Program) (before : Option Char) (skipped : Nat) (rest : List Char) : Option Nat :=
  match p.run before [0] 0 none rest with
  | some length => some (skipped + length)
  | none =>
    if p.isAnchored then none
    else match rest with
      | [] => none
      | c :: rest => search p (some c) (skipped + 1) rest

/-- The number of characters up to the end of the leftmost match in a text. -/
def matchEnd (p : Program) (text : List Char) : Option Nat := p.search none 0 text

/-- Matching on ends within the text. -/
theorem run_le {p : Program} {before : Option Char} {places : List Nat} {count n : Nat}
    {best : Option Nat} {rest : List Char} (found : p.run before places count best rest = some n) :
    best = some n ∨ n ≤ count + rest.length := by
  induction rest generalizing before places count best with
  | nil =>
    unfold run at found
    dsimp only at found
    split at found
    · exact Or.inr (by cases found; simp)
    · exact Or.inl found
  | cons c rest ih =>
    unfold run at found
    dsimp only at found
    rw [List.length_cons]
    split at found
    · -- no way reads on: the best match is that so far, or ends here
      split at found
      · exact Or.inr (by cases found; omega)
      · exact Or.inl found
    · rcases ih found with same | later
      · split at same
        · exact Or.inr (by cases same; omega)
        · exact Or.inl same
      · exact Or.inr (by omega)

theorem search_le {p : Program} {before : Option Char} {skipped n : Nat} {rest : List Char}
    (found : p.search before skipped rest = some n) : n ≤ skipped + rest.length := by
  induction rest generalizing before skipped with
  | nil =>
    unfold search at found
    split at found
    next length here =>
      cases found
      have bound := (run_le here).resolve_left (by simp)
      omega
    next => split at found <;> cases found
  | cons c rest ih =>
    unfold search at found
    split at found
    next length here =>
      cases found
      have bound := (run_le here).resolve_left (by simp)
      omega
    next =>
      split at found
      · cases found
      · have bound := ih found
        rw [List.length_cons]
        omega

theorem matchEnd_le {p : Program} {text : List Char} {n : Nat} (found : p.matchEnd text = some n) :
    n ≤ text.length := by
  have bound := search_le found
  omega

end ShiftReduce.Regex.Program
