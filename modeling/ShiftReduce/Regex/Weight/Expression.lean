import ShiftReduce.Regex.Building
import ShiftReduce.Regex.Weight.Trail
import ShiftReduce.Regex.Weight.Words

/-!
# The weight of an expression

The weight of an automaton for an expression is added up from those for its parts. A repetition
counts its body once for every time that it may be gone through, as far as that is bounded.
-/
namespace ShiftReduce.Regex

/-- The weight of a repetition, given that of its body. -/
def repetitionWeight (body min : Nat) (max : Option Nat) (bodyReads : Bool) : Nat :=
  match min, max with
  | 0, some 1 => forkWeight 2 + body + stateWeight
  | 0, none => if bodyReads then forkWeight 2 + body else 2 * forkWeight 2 + body + stateWeight
  | min, none => min * body + forkWeight 2
  | min, some max =>
    let required := if min = 0 then stateWeight else min * body
    if min = max then required
    else required + stateWeight + (max - min) * (forkWeight 2 + body)

mutual

/-- The weight of an automaton for an expression. -/
def weight (d : Direction) : Regex → Nat
  | literal text => stateWeight * (bytes d text).length
  | one s => setWeight d s
  | holds _ => stateWeight
  | captured _ r => r.weight d + match d with
    | .forwards => 2 * stateWeight
    | .backwards => 0
  | repeated r min max _ => repetitionWeight (r.weight d) min max r.alwaysReads
  | sequence rs => if rs.isEmpty then stateWeight else totalWeight d 0 rs
  | choice rs =>
    match rs.mapM text? with
    | some texts => wordsWeight d texts
    | none => forkWeight rs.length + stateWeight + totalWeight d 0 rs

/-- The weights of some expressions, added to `n`. -/
def totalWeight (d : Direction) (n : Nat) : List Regex → Nat
  | [] => n
  | r :: rest => totalWeight d (n + r.weight d) rest

end

/-- Whether an expression is light enough to be accepted. An automaton that may begin anywhere also
has states to skip what is before a match. -/
def isLight (r : Regex) : Bool :=
  let skipping (isAnchored : Bool) : Nat :=
    if isAnchored then stateWeight else forkWeight 2 + stateWeight + readerWeight 1
  let forwards := skipping (r.beginsWith .textStart) + r.weight .forwards + 3 * stateWeight
  let backwards := skipping (r.endsWith .textEnd) + r.weight .backwards + stateWeight
  forwards ≤ weightLimit && backwards ≤ weightLimit

end ShiftReduce.Regex
