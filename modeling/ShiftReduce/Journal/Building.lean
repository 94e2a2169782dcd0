import ShiftReduce.Journal.Event
import ShiftReduce.Definition.Basic

/-!
# Events of building

The events of augmenting and analysing a grammar and of building automata, tables, parsers and
frontends, in order, up to the first failure.
-/
namespace ShiftReduce

def Grammar.augmentEvents (g : Grammar) : List Event :=
  match g.augment with
  | (.ok (), augmented) =>
    if g.isAugmented then [] else (augmented.acceptProduction?.toList).map .augmented
  | (.error _, _) => []

def Analysis.events (a : Analysis) (g : Grammar) : List Event :=
  [.analysed a.passes g.productions.length]

def Automaton.events (m : Automaton) : List Event :=
  .collectionBuilt m.unmergedCount ::
    if m.merged then [.statesMerged m.unmergedCount m.size] else []

namespace Table

/-- Conflicts are announced as they are found. -/
def events (t : Table) (g : Grammar) (m : Automaton) : List Event :=
  (filled g m).conflicts.map .conflictFound ++ [.tableBuilt t.size t.conflicts.length]

end Table

namespace Parser

/-- Every name is announced before its rule is added. -/
def ruleEvents (engine : Regex.Engine) (l : Lexer) : List String → List Event
  | [] => []
  | name :: rest =>
    .terminalRegistered name ::
      match l.extend engine (.ofLiteral name) with
      | .ok l => ruleEvents engine l rest
      | .error _ => []

/-- The events of analysing an augmented grammar and building its automaton and table. -/
def tableEvents (g : Grammar) (settings : Settings) : List Event :=
  let analysis := g.analysis
  let analysed := analysis.events g ++ [.analysisFinished analysis.passes]
  match Automaton.ofGrammar g analysis settings.lalr with
  | .error _ => analysed
  | .ok m =>
    let table := Table.ofAutomaton g m
    analysed ++ m.events ++ table.events g m ++
      [.parserReady g.productions.length table.size table.conflicts.length]

def buildEvents (engine : Regex.Engine) (g : Grammar) (l : Lexer) (settings : Settings) :
    List Event :=
  match g.augment with
  | (.error _, _) => []
  | (.ok (), augmented) =>
    let names := missingTerminals augmented l
    g.augmentEvents ++ ruleEvents engine l names ++
      match extendAll engine l names with
      | .ok _ => tableEvents augmented settings
      | .error _ => []

end Parser

/-- A lexer that was built is announced with the number of its rules. -/
def Lexer.buildEvents (built : Except Fault Lexer) : List Event :=
  match built with
  | .ok l => [.rulesCompiled l.rules.length]
  | .error _ => []

def Definition.buildEvents (engine : Regex.Engine) (d : Definition) : List Event :=
  match d.flattened with
  | .error _ => []
  | .ok s =>
    .rulesFlattened d.rules.length s.grammar.productions.length s.literals.length ::
      Lexer.buildEvents
        (Lexer.ofRules engine d.preference (d.tokens ++ s.literals.map LexRule.ofLiteral))

end ShiftReduce
