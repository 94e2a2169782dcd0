import ShiftReduce.Text.CharSet

/-!
# Weights of automata

An expression is accepted only if an automaton that reads its matches byte by byte in UTF-8 stays
below a limit, both the one that reads forwards and the one that reads backwards. The weight of an
automaton is that of its states, with their transitions and forks.
-/
namespace ShiftReduce.Regex

/-- The greatest weight that an automaton may have. -/
def weightLimit : Nat := 10 * 1024 * 1024

/-- A state that reads one range of bytes, checks a condition or does nothing. -/
def stateWeight : Nat := 32

/-- A state that reads one of several ranges of bytes. -/
def readerWeight (ranges : Nat) : Nat := stateWeight + 8 * ranges

/-- A state that forks. -/
def forkWeight (ways : Nat) : Nat := stateWeight + 4 * ways

inductive Direction where
  | forwards
  | backwards
deriving DecidableEq, Repr

end ShiftReduce.Regex
