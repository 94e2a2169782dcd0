import ShiftReduce.Regex.Weight.Basic

/-!
# The weight of a set of characters

The characters of a set, written in UTF-8, follow trails of byte ranges. An automaton for the set
reads along all trails at once; its weight is computed from them without building it.
-/
namespace ShiftReduce.Regex

/-- Ranges of byte values, one behind the other: the characters whose bytes lie in them. -/
abbrev Trail := List (Nat × Nat)

/-- The trails for the numbers from `first` to `last`, written with a leading digit and `digits`
more to the base 64. -/
def trailsWithin : (digits first last : Nat) → List Trail
  | 0, first, last => [[(first, last)]]
  | digits + 1, first, last =>
    let unit := Nat.pow 64 (digits + 1)
    let behind (digit : Nat × Nat) (low high : Nat) : List Trail :=
      (trailsWithin digits low high).map (digit :: ·)
    let (a, low) := (first / unit, first % unit)
    let (b, high) := (last / unit, last % unit)
    if a = b then behind (a, a) low high
    else
      -- leading digits with all digits behind them go together
      let (before, a) := if low = 0 then ([], a) else (behind (a, a) low (unit - 1), a + 1)
      let (after, b) := if high = unit - 1 then ([], b + 1) else (behind (b, b) 0 high, b)
      before ++ (if a < b then behind (a, b - 1) 0 (unit - 1) else []) ++ after

/-- Ranks of characters that are written with equally many bytes: from a first rank to before a last
one, the number of bytes behind the leading one, and the value of the leading one for zero. -/
def byteLengths : List (Nat × Nat × Nat × Nat) :=
  [(0, 0x80, 0, 0), (0x80, 0x800, 1, 0xC0), (0x800, 0xD800, 2, 0xE0), (0xD800, 0xF800, 2, 0xE0),
    (0xF800, Text.characterCount, 3, 0xF0)]

/-- The trails of a set of characters, in order. -/
def trails (s : Text.CharSet) : List Trail :=
  s.ranges.flatMap fun (first, last) => byteLengths.flatMap fun (low, high, digits, lead) =>
    let (first, last) := (max first low, min last high)
    if last ≤ first then []
    else (trailsWithin digits (Text.unrank first) (Text.unrank (last - 1))).map fun
      | [] => []
      | (a, b) :: rest => (lead + a, lead + b) :: rest

/-- Put a trail in front of trails that are grouped by their first ranges. -/
def groupTrail (t : Trail) (groups : List ((Nat × Nat) × List Trail)) :
    List ((Nat × Nat) × List Trail) :=
  match t, groups with
  | [], groups => groups
  | step :: rest, (range, behind) :: groups =>
    if step = range then (range, rest :: behind) :: groups
    else (step, [rest]) :: (range, behind) :: groups
  | step :: rest, [] => [(step, [rest])]

/-- Where trails lead: their first ranges, and what is behind each of them. -/
def steps (ts : List Trail) : List ((Nat × Nat) × List Trail) := ts.foldr groupTrail []

/-- The places on the way of some trails of at most `depth` ranges, each told by what is behind it.
The ends of trails are left out. -/
def waypoints : (depth : Nat) → List Trail → List (List Trail)
  | 0, _ => []
  | depth + 1, ts =>
    match steps ts with
    | [] => []
    | groups => ts :: groups.flatMap fun (_, behind) => waypoints depth behind

/-- Whether all characters of a set are ASCII. -/
def isAscii (s : Text.CharSet) : Bool := s.ranges.all fun (_, last) => last ≤ 0x80

/-- The weight of an automaton that reads one character of a set. Forwards, places with the same
behind them are one state; backwards, there is a state for each step of a trail. -/
def setWeight (d : Direction) (s : Text.CharSet) : Nat :=
  let ts := trails s
  let places := waypoints 4 ts
  if isAscii s then stateWeight + readerWeight s.ranges.length
  else match d with
    | .forwards =>
      places.eraseDups.foldr (fun place n => readerWeight (steps place).length + n) stateWeight
    | .backwards =>
      stateWeight + forkWeight ts.length + stateWeight * (places.flatMap steps).length

end ShiftReduce.Regex
