import ShiftReduce.Definition.Flattening
import ShiftReduce.Parser.Basic

/-!
# Definitions

A definition lists tokens, rules and a start rule. Building it gives a frontend: a grammar and the
lexer that feeds it.
-/
namespace ShiftReduce

/-- A grammar and its lexer. -/
structure Frontend where
  grammar : Grammar
  lexer : Lexer

/-- Tokens, rules with their bodies, the start rule, and how the lexer picks among its rules. -/
structure Definition where
  tokens : List LexRule
  rules : List (String × Body)
  start : Option String
  preference : Preference

namespace Definition

def tokenNames (d : Definition) : List String := d.tokens.map (·.name)

def declared (d : Definition) : Declared := ⟨d.tokenNames, d.rules.map (·.1)⟩

/-- Add the declared tokens as terminals. The name of the end of the input is left to the lexer to
refuse. -/
def addTokens (g : Grammar) : List String → Except Fault Grammar
  | [] => .ok g
  | name :: rest =>
    if name = endName then addTokens g rest
    else match g.addTerminal name with
      | (.ok _, g) => addTokens g rest
      | (.error e, _) => .error e

/-- Declare the rules. No two have one name, and none has the name of a token. -/
def declareRules (tokens : List String) (g : Grammar) (seen : List String) :
    List String → Except Fault Grammar
  | [] => .ok g
  | name :: rest =>
    if name ∈ tokens then .error (.nameConflict name)
    else if name ∈ seen then .error (.duplicateRule name)
    else match g.addNonterminal name with
      | (.ok _, g) => declareRules tokens g (name :: seen) rest
      | (.error e, _) => .error e

/-- The grammar of a definition, and the literals of its rules. -/
def flattened (d : Definition) : Except Fault Flattening :=
  match d.start with
  | none => .error .missingStart
  | some start => do
    let g ← addTokens .empty d.tokenNames
    let g ← declareRules d.tokenNames g [] d.declared.rules
    if start ∉ d.declared.rules then throw (.undefinedStart start)
    let s ← Flattening.addRules ⟨g, []⟩ d.declared d.rules
    let (_, s) ← s.edit (·.startFrom start)
    return s

/-- The frontend of a definition. Literals become rules behind the declared tokens. -/
def frontend (engine : Regex.Engine) (d : Definition) : Except Fault Frontend := do
  let s ← d.flattened
  let lexer ← Lexer.ofRules engine d.preference (d.tokens ++ s.literals.map LexRule.ofLiteral)
  return ⟨s.grammar, lexer⟩

end Definition

namespace Frontend

/-- The parser of a frontend. -/
def parser (engine : Regex.Engine) (f : Frontend) (settings : Settings) : Except Fault Parser :=
  Parser.ofGrammar engine f.grammar f.lexer settings

end Frontend

end ShiftReduce
