import ShiftReduce.Automaton.Item

/-!
# Automata

An automaton numbers its states, which are item sets, and has at most one edge for each state and
symbol.
-/
namespace ShiftReduce

/-- States by number, and for each state its edges in symbol order. `unmergedCount` is the number
of states before any merging. -/
structure Automaton where
  states : List ItemSet
  edges : List (List (Symbol × Nat))
  unmergedCount : Nat
  merged : Bool
deriving DecidableEq

namespace Automaton

def size (m : Automaton) : Nat := m.states.length

def state? (m : Automaton) (number : Nat) : Option ItemSet := m.states[number]?

/-- The edges of a state, in symbol order. -/
def edgesOf (m : Automaton) (number : Nat) : List (Symbol × Nat) := m.edges[number]?.getD []

/-- Where the edge of a state over a symbol leads. -/
def target? (m : Automaton) (number : Nat) (s : Symbol) : Option Nat :=
  (m.edgesOf number).lookup s

/-- The state equal to `items` in a canonical automaton, otherwise the first state with their
core. -/
def stateOf? (m : Automaton) (items : ItemSet) : Option Nat :=
  let exact := if m.merged then none else m.states.findIdx? (· = items)
  exact <|> m.states.findIdx? (·.core = items.core)

end Automaton

end ShiftReduce
