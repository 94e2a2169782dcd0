import ShiftReduce.Automaton.Basic

/-!
# The canonical LR(1) automaton

The automaton is explored breadth first from the closure of `S' -> . S EOF`. The successors of a
state are taken in symbol order, so its numbering is fixed.
-/
namespace ShiftReduce.Automaton

/-- The state after one step, for every symbol behind a dot. No edge leads over the end of the
input, where the parser accepts instead. -/
def successors (g : Grammar) (a : Analysis) (items : ItemSet) : List (Symbol × ItemSet) :=
  ((items.outgoing g).toList.filter (· ≠ Symbol.endOfInput)).map fun s => (s, items.goto g a s)

/-- The number of a state; a new state is added behind the others. -/
def locate (states : List ItemSet) (items : ItemSet) : Nat × List ItemSet :=
  match states.findIdx? (· = items) with
  | some number => (number, states)
  | none => (states.length, states ++ [items])

/-- Number the targets of one state's edges in order. -/
def connect : List (Symbol × ItemSet) → List ItemSet → List (Symbol × Nat) × List ItemSet
  | [], states => ([], states)
  | (s, items) :: rest, states =>
    let (number, states) := locate states items
    let (row, states) := connect rest states
    ((s, number) :: row, states)

/-- Explore the states that have no edges yet, in order. -/
def explore (g : Grammar) (a : Analysis) :
    Nat → List ItemSet → List (List (Symbol × Nat)) → List ItemSet × List (List (Symbol × Nat))
  | 0, states, edges => (states, edges)
  | budget + 1, states, edges =>
    -- every state before this one has its row of edges
    match states[edges.length]? with
    | none => (states, edges)
    | some items =>
      let (row, states) := connect (successors g a items) states
      explore g a budget states (edges ++ [row])

/-- Number of places that a dot can have in the productions of a grammar. -/
def numPlaces (g : Grammar) : Nat := g.productions.foldr (fun p n => p.length + 1 + n) 0

/-- Enough rounds: there are no more item sets than sets of items over the grammar, and an item is
a production, a dot and a lookahead. -/
def stateBudget (g : Grammar) : Nat := Nat.pow 2 (numPlaces g * g.numSymbols) + 1

/-- The closure of `S' -> . S EOF`. -/
def initialState (g : Grammar) (a : Analysis) (accept : Nat) : ItemSet :=
  ItemSet.closure g a [Item.of accept 0 Symbol.endOfInput]

/-- The canonical LR(1) automaton of a grammar with accept production `accept`. -/
def canonical (g : Grammar) (a : Analysis) (accept : Nat) : Automaton :=
  let (states, edges) := explore g a (stateBudget g) [initialState g a accept] []
  ⟨states, edges, states.length, false⟩

end ShiftReduce.Automaton
