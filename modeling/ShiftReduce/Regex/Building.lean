import ShiftReduce.Regex.Shape

/-!
# Building expressions

Expressions are built in a reduced form: sequences and choices hold no sequences or choices
themselves, neighbouring literals are one literal, a choice between characters is a set, and what
all branches of a choice begin with stands in front of it.
-/
namespace ShiftReduce.Regex

/-- Matches everywhere and reads nothing. -/
def empty : Regex := sequence []

/-- A character of a set. -/
def ofSet (s : Text.CharSet) : Regex :=
  match s.member? with
  | some c => literal [c]
  | none => one s

def factors : Regex → List Regex
  | sequence rs => rs
  | r => [r]

/-- Put a factor in front of others. Two literals become one. -/
def prepend (r : Regex) (rest : List Regex) : List Regex :=
  match r, rest with
  | literal a, literal b :: rest => literal (a ++ b) :: rest
  | r, rest => r :: rest

/-- One expression behind the other. -/
def inOrder (rs : List Regex) : Regex :=
  match (rs.flatMap factors).foldr prepend [] with
  | [r] => r
  | rs => sequence rs

def branches : Regex → List Regex
  | choice rs => rs
  | r => [r]

/-- The text of a literal. -/
def text? : Regex → Option (List Char)
  | literal text => some text
  | _ => none

/-- The character that the whole expression stands for. -/
def character? : Regex → Option Char
  | literal [c] => some c
  | _ => none

def set? : Regex → Option Text.CharSet
  | one s => some s
  | _ => none

/-- The set that some branches describe, if all of them are characters or all are sets. -/
def asSet? (rs : List Regex) : Option Text.CharSet :=
  match rs.mapM character?, rs.mapM set? with
  | some cs, _ => some (.ofPoints (cs.map fun c => (c.toNat, c.toNat)))
  | none, some sets => some (sets.foldl .union .empty)
  | none, none => none

/-- A choice that is not looked into further. -/
def oneOf (rs : List Regex) : Regex :=
  match rs.flatMap branches with
  | [r] => r
  | rs =>
    match asSet? rs with
    | some s => ofSet s
    | none => choice rs

/-- The factors of a sequence of several. Other expressions share nothing with their neighbours. -/
def chain : Regex → List Regex
  | sequence rs => rs
  | _ => []

/-- The factors that all branches begin with. -/
def sharedFront : List Regex → List Regex
  | [] => []
  | r :: rest => rest.foldl
    (fun front s => ((front.zip s.chain).takeWhile fun (a, b) => a == b).map (·.1)) r.chain

/-- One of several expressions. -/
def anyOf (rs : List Regex) : Regex :=
  match oneOf rs with
  | choice rs =>
    let front := sharedFront rs
    if front.isEmpty then choice rs
    else inOrder (front ++ [oneOf (rs.map fun r => inOrder (r.chain.drop front.length))])
  | r => r

/-- `r` at least `min` and at most `max` times. What reads nothing is not gone through twice. -/
def times (r : Regex) (min : Nat) (max : Option Nat) (isLazy : Bool) : Regex :=
  let min := if r.neverReads then Nat.min min 1 else min
  let max := if r.neverReads then some (Nat.min (max.getD 1) 1) else max
  if max = some 0 then empty
  else if min = 1 ∧ max = some 1 then r
  else repeated r min max isLazy

end ShiftReduce.Regex
