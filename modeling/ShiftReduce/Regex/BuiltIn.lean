import ShiftReduce.Regex.Assembly
import ShiftReduce.Regex.Matching
import ShiftReduce.Regex.Weight.Expression

/-!
# The built-in engine

An engine for a large part of the usual notation: groups, classes and their operations, the flags
`i`, `m`, `s` and `U`, boundaries of words, greedy and lazy repetition. Classes by Unicode property
are refused.
-/
namespace ShiftReduce.Regex

def Program.matcher (p : Program) : Matcher := ⟨p.matchEnd, fun _ _ => p.matchEnd_le⟩

def Engine.builtIn : Engine where
  compile source :=
    match parse source with
    | .ok r => if r.isLight then .ok (Program.ofRegex r).matcher else .error (.tooBig weightLimit)
    | .error e => .error (.malformed e.message)

end ShiftReduce.Regex
