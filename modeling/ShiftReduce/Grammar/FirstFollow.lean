import ShiftReduce.Grammar.Basic

/-!
# Nullable symbols, FIRST and FOLLOW sets

All three are least fixpoints over the productions, reached by repeated passes. A pass relaxes one
production after another, each seeing what the earlier ones added. Only facts are added, and there
are finitely many, so a number of passes computed from the size of the grammar is enough.
-/
namespace ShiftReduce

/-- What has been established about symbols, by symbol number. -/
structure Begins where
  nullable : List Bool
  first : List SymbolSet
deriving DecidableEq

namespace Begins

def isNullable (b : Begins) (s : Symbol) : Bool := b.nullable[s.index]?.getD false

def allNullable (b : Begins) (sequence : List Symbol) : Bool :=
  sequence.all b.isNullable

def first? (b : Begins) (s : Symbol) : Option SymbolSet := b.first[s.index]?

def firstOf (b : Begins) (s : Symbol) : SymbolSet := (b.first? s).getD ∅

/-- Terminals that can begin `sequence` followed by `trailing`. The trailing terminal counts only
when the whole sequence is nullable. -/
def beginnings (b : Begins) : List Symbol → Option Symbol → SymbolSet
  | [], trailing => OrderedSet.ofList trailing.toList
  | s :: rest, trailing =>
    if b.isNullable s then b.firstOf s ∪ b.beginnings rest trailing else b.firstOf s

/-- Nothing is nullable, and a terminal begins with itself. -/
def initial (g : Grammar) : Begins where
  nullable := g.symbols.map fun _ => false
  first := g.symbols.map fun s => if g.isTerminal s then OrderedSet.ofList [s] else ∅

/-- Let `lhs` begin with whatever the right-hand side can begin with. A recursive occurrence of
`lhs` adds nothing of its own. -/
def absorb (lhs : Symbol) : List Symbol → Begins → Begins
  | [], b => b
  | s :: rest, b =>
    let b :=
      if s = lhs then b
      else { b with first := b.first.modify lhs.index (· ∪ b.firstOf s) }
    if b.isNullable s then absorb lhs rest b else b

/-- What one production adds. -/
def relax (b : Begins) (p : Production) : Begins :=
  let b :=
    if b.allNullable p.rhs then { b with nullable := b.nullable.set p.lhs.index true } else b
  b.absorb p.lhs p.rhs

/-- One round over all productions. -/
def pass (productions : List Production) (b : Begins) : Begins := productions.foldl relax b

/-- Pass until nothing changes; also counts the passes, the last and idle one included. -/
def stabilise (productions : List Production) : Nat → Nat → Begins → Begins × Nat
  | 0, passes, b => (b, passes)
  | budget + 1, passes, b =>
    let next := b.pass productions
    -- the idle pass is counted too
    if next = b then (b, passes + 1) else stabilise productions budget (passes + 1) next

/-- Let whatever follows each nonterminal in `rhs`, a tail of a production of `lhs`, into its
FOLLOW set; behind a nullable rest that is all that follows `lhs`. -/
def spread (b : Begins) (g : Grammar) (lhs : Symbol) :
    List Symbol → List SymbolSet → List SymbolSet
  | [], follow => follow
  | s :: rest, follow =>
    let follow :=
      if g.isNonterminal s then
        let behind := b.beginnings rest none
        -- what follows `lhs` also follows the last symbol of its productions
        let inherited := if b.allNullable rest then follow[lhs.index]?.getD ∅ else ∅
        follow.modify s.index (· ∪ behind ∪ inherited)
      else follow
    b.spread g lhs rest follow

/-- One round of FOLLOW over all productions. -/
def followPass (b : Begins) (g : Grammar) (follow : List SymbolSet) : List SymbolSet :=
  g.productions.foldl (fun follow p => b.spread g p.lhs p.rhs follow) follow

def stabiliseFollow (b : Begins) (g : Grammar) : Nat → List SymbolSet → List SymbolSet
  | 0, follow => follow
  | budget + 1, follow =>
    let next := b.followPass g follow
    if next = follow then follow else b.stabiliseFollow g budget next

end Begins

/-- Nullable symbols, FIRST and FOLLOW sets of a grammar, and the passes the first two took. A
symbol that the grammar met after the analysis has no row. -/
structure Analysis extends Begins where
  follow : List SymbolSet
  passes : Nat
deriving DecidableEq

namespace Analysis

def follow? (a : Analysis) (s : Symbol) : Option SymbolSet := a.follow[s.index]?

/-- Only the start symbol is followed by something, by the end of the input. -/
def initialFollow (g : Grammar) : List SymbolSet :=
  g.symbols.map fun s =>
    if g.startSymbol? = some s then OrderedSet.ofList [Symbol.endOfInput] else ∅

/-- Enough passes: each but the last adds a fact of the form "is nullable", "begins with" or "is
followed by". -/
def budget (g : Grammar) : Nat := g.numSymbols * (g.numSymbols + 1) + 1

end Analysis

/-- Analyse the grammar as it is now. -/
def Grammar.analysis (g : Grammar) : Analysis :=
  let (begins, passes) := Begins.stabilise g.productions (Analysis.budget g) 0 (Begins.initial g)
  { begins with
    follow := begins.stabiliseFollow g (Analysis.budget g) (Analysis.initialFollow g)
    passes }

end ShiftReduce
