import ShiftReduce.OrderedSet

/-!
# Symbols and productions

A grammar numbers its symbols in the order in which it first meets their names. Symbols are ordered
by that number, and number 0 is always the end of the input.
-/
namespace ShiftReduce

/-- A grammar symbol, named by its place in the grammar's symbol list. -/
structure Symbol where
  index : Nat
deriving DecidableEq, Repr, Inhabited

namespace Symbol

instance : Ord Symbol := ⟨compareOn index⟩

instance : Std.TransOrd Symbol := inferInstanceAs (Std.TransCmp (compareOn index))

instance : Std.LawfulEqOrd Symbol where
  eq_of_compare {a b} equal := by
    have : a.index = b.index := Std.LawfulEqOrd.eq_of_compare (α := Nat) equal
    cases a
    cases b
    simp_all

/-- The end of the input. -/
def endOfInput : Symbol := ⟨0⟩

end Symbol

/-- The name of the end of the input, reserved in every grammar. -/
def endName : String := "EOF"

abbrev SymbolSet := OrderedSet Symbol

/-- What a symbol stands for. A name that only occurred on a right-hand side is an implicit
terminal; it turns into a nonterminal when it gets a production of its own. -/
inductive Symbol.Kind where
  | declared
  | implicit
  | nonterminal
deriving DecidableEq, Repr

namespace Symbol.Kind

def isTerminal : Symbol.Kind → Bool
  | declared | implicit => true
  | nonterminal => false

def render : Symbol.Kind → String
  | declared => "terminal"
  | implicit => "implicit"
  | nonterminal => "nonterminal"

end Symbol.Kind

/-- A production `lhs -> rhs`. A generated one was synthesised, not written by the author of the
grammar, and its nodes are spliced out of finished trees. -/
structure Production where
  index : Nat
  lhs : Symbol
  name : String
  rhs : List Symbol
  rhsNames : List String
  generated : Bool
deriving DecidableEq, Repr

namespace Production

def length (p : Production) : Nat := p.rhs.length

/-- The production as text, `ε` standing for an empty right-hand side. -/
def render (p : Production) : String :=
  match p.rhsNames with
  | [] => p.name ++ " -> ε"
  | names => p.name ++ " ->" ++ String.join (names.map (" " ++ ·))

end Production

end ShiftReduce
