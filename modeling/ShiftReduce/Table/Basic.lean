import ShiftReduce.Automaton.Merging
import ShiftReduce.Table.Action

/-!
# Parse tables

A table is a grid with one row per state of an automaton and one column per symbol, kept as one
array, row behind row. The states ask for actions one after the other: for their edges, for
accepting, and for the reductions. Each action that is beaten by another leaves a conflict.
-/
namespace ShiftReduce

namespace Conflict

/-- Whether a conflict may stand in front of another: the order is by state and symbol only. -/
def precedes (c d : Conflict) : Bool :=
  c.state < d.state || (c.state = d.state && c.symbol.index ≤ d.symbol.index)

end Conflict

/-- The table of an automaton: the cells of all rows, the symbols of the columns that belonged to
terminals when it was built, and the conflicts. -/
structure Table where
  width : Nat
  cells : Array (Option Action)
  terminals : List (Option Symbol)
  conflicts : List Conflict
deriving DecidableEq

namespace Table

/-! ## Building -/

/-- What a state asks of its row, in order: the edges, accepting, the reductions. -/
def requests (g : Grammar) (m : Automaton) (number : Nat) (items : ItemSet) :
    List (Symbol × Action) :=
  (m.edgesOf number).map (fun (s, target) =>
    (s, if g.isTerminal s then .shift target else .goto target)) ++
  -- accepting happens in front of the end of the input, which is never shifted
  (if items.isAccepting g then [(Symbol.endOfInput, .accept)] else []) ++
  -- the accept production itself is never reduced
  ((items.reductions g).filter (g.accept ≠ some ·.2.index)).map fun (item, p) =>
    (item.lookahead, .reduce p.index)

/-- What all states ask for, in order. -/
def assignments (g : Grammar) (m : Automaton) : List (Nat × Symbol × Action) :=
  m.states.zipIdx.flatMap fun (items, number) => (requests g m number items).map (number, ·)

/-- There is a column even if there are no symbols. -/
def numColumns (g : Grammar) : Nat := max g.numSymbols 1

/-- The columns, of which those of the terminals get their symbol. -/
def columns (g : Grammar) : List (Option Symbol) :=
  g.terminals.foldl (fun columns s => columns.set s.index (some s))
    (List.replicate (numColumns g) none)

/-- A table with nothing in it. -/
def blank (g : Grammar) (size : Nat) : Table :=
  ⟨numColumns g, .replicate (numColumns g * size) none, columns g, []⟩

/-- Put an action into a cell. If the cell is taken, the two compete for it; no place outside of the
grid is written to. -/
def assign (g : Grammar) (t : Table) (state : Nat) (s : Symbol) (candidate : Action) : Table :=
  if s.index < t.width then
    let place := state * t.width + s.index
    match t.cells[place]? with
    | none => t
    | some none => { t with cells := t.cells.setIfInBounds place (some candidate) }
    | some (some current) =>
      match current.contest candidate with
      | none => t
      | some (kind, chosen, rejected) =>
        { t with
          cells := t.cells.setIfInBounds place (some chosen)
          conflicts := t.conflicts ++ [⟨state, s, g.name s, kind, chosen, rejected⟩] }
  else t

def assignAll (g : Grammar) (t : Table) (requests : List (Nat × Symbol × Action)) : Table :=
  requests.foldl (fun t (state, s, candidate) => t.assign g state s candidate) t

/-- The table with its conflicts in the order in which they were found. -/
def filled (g : Grammar) (m : Automaton) : Table :=
  (blank g m.size).assignAll g (assignments g m)

/-- The table of an automaton of the grammar. The sort keeps the order of the conflicts of a cell. -/
def ofAutomaton (g : Grammar) (m : Automaton) : Table :=
  let t := filled g m
  { t with conflicts := t.conflicts.mergeSort Conflict.precedes }

/-! ## Reading -/

def size (t : Table) : Nat := t.cells.size / t.width

def cell? (t : Table) (state : Nat) (s : Symbol) : Option Action :=
  if s.index < t.width then t.cells[state * t.width + s.index]?.join else none

/-- The action of a cell; an error where the cell is vacant. -/
def action (t : Table) (state : Nat) (s : Symbol) : Action := (t.cell? state s).getD .error

/-- The state after a reduction to the nonterminal `s` has exposed `state`. -/
def goto? (t : Table) (state : Nat) (s : Symbol) : Option Nat :=
  match t.cell? state s with
  | some (.goto target) => some target
  | _ => none

/-- The cells of a state. -/
def row (t : Table) (state : Nat) : List (Option Action) :=
  let start := state * t.width
  if start + t.width ≤ t.cells.size then (t.cells.extract start (start + t.width)).toList else []

/-- The terminals with an action in `state`, in symbol order. -/
def expected (t : Table) (state : Nat) : List Symbol :=
  (((t.row state).zip t.terminals).filter (·.1.isSome)).filterMap (·.2)

/-- The cells of a row that are not vacant, as text in symbol order. -/
def renderRow (g : Grammar) (row : List (Option Action)) : String :=
  " ".intercalate ((row.mapIdx fun i cell =>
    cell.map fun action => g.name ⟨i⟩ ++ "=" ++ action.render).filterMap id)

/-- The table as text, one line for each state. -/
def lines (t : Table) (g : Grammar) : List String :=
  (List.range t.size).map fun state => renderRow g (t.row state)

def isContested (t : Table) : Bool := !t.conflicts.isEmpty

end Table

end ShiftReduce
