import ShiftReduce.Grammar.Fault
import ShiftReduce.Grammar.Symbol

/-!
# Actions and conflicts

What a parser can do next, and what happens when a table asks for two things at once: a shift and
accepting beat a reduction, and of two reductions the one with the lower production wins.
-/
namespace ShiftReduce

/-- The content of a table cell. -/
inductive Action where
  | shift (state : Nat)
  | reduce (production : Nat)
  | goto (state : Nat)
  | accept
  | error
deriving DecidableEq, Repr

namespace Action

def isError : Action → Bool
  | error => true
  | _ => false

/-- The short form used in tables. -/
def render : Action → String
  | shift state => "s" ++ toString state
  | reduce production => "r" ++ toString production
  | goto state => "g" ++ toString state
  | accept => "acc"
  | error => ""

/-- The long form used in messages. -/
def describe : Action → String
  | shift state => "Shift(" ++ toString state ++ ")"
  | reduce production => "Reduce(" ++ toString production ++ ")"
  | goto state => "Goto(" ++ toString state ++ ")"
  | accept => "Accept"
  | error => "Error"

end Action

inductive Conflict.Kind where
  | shiftReduce
  | reduceReduce
  | acceptReduce
deriving DecidableEq, Repr

def Conflict.Kind.render : Conflict.Kind → String
  | shiftReduce => "shift/reduce"
  | reduceReduce => "reduce/reduce"
  | acceptReduce => "accept/reduce"

/-- A cell that two actions competed for. -/
structure Conflict where
  state : Nat
  symbol : Symbol
  name : String
  kind : Conflict.Kind
  chosen : Action
  rejected : Action
deriving DecidableEq, Repr

def Conflict.render (c : Conflict) : String :=
  c.kind.render ++ " conflict in state " ++ toString c.state ++ " on " ++
    Fault.quoted c.name ++ ": chose " ++ c.chosen.render ++ " over " ++ c.rejected.render

namespace Action

/-- Settle a cell that holds `current` when `candidate` arrives: the kind of conflict, the winner
and the loser. `none` if the cell stays as it is and nothing is recorded. -/
def contest (current candidate : Action) : Option (Conflict.Kind × Action × Action) :=
  match current, candidate with
  | shift _, reduce _ => some (.shiftReduce, current, candidate)
  | reduce _, shift _ => some (.shiftReduce, candidate, current)
  | accept, reduce _ => some (.acceptReduce, current, candidate)
  | reduce _, accept => some (.acceptReduce, candidate, current)
  | reduce p, reduce q =>
    if p = q then none
    else if p < q then some (.reduceReduce, current, candidate)
    else some (.reduceReduce, candidate, current)
  | _, _ => none

end Action

end ShiftReduce
