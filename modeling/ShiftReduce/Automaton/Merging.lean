import ShiftReduce.Automaton.Canonical

/-!
# The LALR(1) automaton

Merging unites the states of the canonical automaton that share a core. The united states are
numbered by the first canonical state of each core.
-/
namespace ShiftReduce.Automaton

/-- The cores of some states, each once, by first appearance. -/
def cores (states : List ItemSet) : List Core := (states.map (·.core)).eraseDups

/-- The number of each state's core. -/
def coreNumbers (states : List ItemSet) : List Nat :=
  let known := cores states
  states.map fun items => known.idxOf items.core

/-- The members of a list whose numbers, listed in `numbers`, are `number`. -/
def numbered {α : Type} (members : List α) (numbers : List Nat) (number : Nat) : List α :=
  ((members.zip numbers).filter (·.2 = number)).map (·.1)

/-- The union of some states. -/
def unite (states : List ItemSet) : ItemSet := states.foldl (· ∪ ·) ∅

/-- The edges of some states that share a core, their targets renumbered, in symbol order. Such
states agree on every target up to its core, so any of them can be asked. -/
def uniteEdges (numbers : List Nat) (rows : List (List (Symbol × Nat))) : List (Symbol × Nat) :=
  let all := rows.flatten
  (OrderedSet.ofList (all.map (·.1))).toList.filterMap fun s =>
    (all.lookup s).bind fun target => numbers[target]?.map (s, ·)

/-- Merge the states that share a core. -/
def merge (m : Automaton) : Automaton :=
  let numbers := coreNumbers m.states
  let merged := List.range (cores m.states).length
  { states := merged.map fun number => unite (numbered m.states numbers number)
    edges := merged.map fun number => uniteEdges numbers (numbered m.edges numbers number)
    unmergedCount := m.unmergedCount
    merged := true }

/-- The canonical or the LALR(1) automaton of an augmented grammar. -/
def ofGrammar (g : Grammar) (a : Analysis) (lalr : Bool) : Except Fault Automaton :=
  match g.accept with
  | none => .error .notAugmented
  | some accept => .ok (if lalr then (canonical g a accept).merge else canonical g a accept)

end ShiftReduce.Automaton
