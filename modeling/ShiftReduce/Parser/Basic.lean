import ShiftReduce.Table.Basic
import ShiftReduce.Lexer.Scanner

/-!
# Parsers

A parser puts together an augmented grammar, a lexer with a rule for each of its terminals, and the
automaton and table of the grammar.
-/
namespace ShiftReduce

/-- How a parser is built and what it does with its results. -/
structure Settings where
  /-- Merge the states of the canonical automaton that share a core. -/
  lalr : Bool
  /-- Answer a refused text with the trees built so far. -/
  keepPartial : Bool
  /-- Refuse grammars whose table has conflicts. -/
  refuseConflicts : Bool
  /-- Splice generated nodes out of finished trees. -/
  splice : Bool
deriving DecidableEq, Repr

def Settings.standard : Settings := ⟨true, false, false, true⟩

structure Parser where
  grammar : Grammar
  lexer : Lexer
  analysis : Analysis
  automaton : Automaton
  table : Table
  settings : Settings

namespace Parser

/-- Terminals of the grammar that the lexer has no rule for. -/
def missingTerminals (g : Grammar) (l : Lexer) : List String :=
  ((g.terminals.filter (· ≠ Symbol.endOfInput)).map g.name).filter fun name => (l.rule? name).isNone

/-- Give each name a rule that matches the name itself, behind the rules there are. -/
def extendAll (engine : Regex.Engine) (l : Lexer) (names : List String) : Except Fault Lexer :=
  names.foldlM (fun l name => l.extend engine (.ofLiteral name)) l

/-- The conflicts of a table in words. -/
def conflictSummary (t : Table) : String := "; ".intercalate (t.conflicts.map (·.render))

/-- The parser of a grammar that is augmented already. -/
def ofAugmented (engine : Regex.Engine) (g : Grammar) (l : Lexer) (settings : Settings) :
    Except Fault Parser := do
  let lexer ← extendAll engine l (missingTerminals g l)
  let analysis := g.analysis
  let automaton ← Automaton.ofGrammar g analysis settings.lalr
  let table := Table.ofAutomaton g automaton
  if settings.refuseConflicts ∧ table.isContested then
    throw (.conflicts table.conflicts.length (conflictSummary table))
  return ⟨g, lexer, analysis, automaton, table, settings⟩

/-- The parser of a grammar and its lexer. -/
def ofGrammar (engine : Regex.Engine) (g : Grammar) (l : Lexer) (settings : Settings) :
    Except Fault Parser :=
  match g.augment with
  | (.ok (), augmented) => ofAugmented engine augmented l settings
  | (.error e, _) => .error e

end Parser

end ShiftReduce
