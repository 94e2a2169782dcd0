import ShiftReduce.Parser.Basic
import ShiftReduce.Parser.Refusal
import ShiftReduce.Tree.Splice

/-!
# Parsing

A run moves from configuration to configuration: a stack of states and trees, the token ahead if it
has been read, and the tokens still to come. Each step shifts that token, reduces a production,
accepts or fails.
-/
namespace ShiftReduce

/-- A tree on the stack and the state behind it. -/
structure StackEntry where
  state : Nat
  tree : Tree
deriving Inhabited

/-- How many tokens were shifted, productions reduced and nodes created. -/
structure Counts where
  tokens : Nat
  nodes : Nat
  reductions : Nat
deriving DecidableEq, Repr

/-- The stack, its top first, above the start state; the token ahead; the tokens to come; and what
has been counted. -/
structure Configuration where
  stack : List StackEntry
  ahead : Option Token
  scanner : Scanner
  counts : Counts

namespace Configuration

def start (scanner : Scanner) : Configuration := ⟨[], none, scanner, ⟨0, 0, 0⟩⟩

/-- The state on top of the stack. -/
def state (c : Configuration) : Nat := (c.stack.head?.map (·.state)).getD 0

/-- The trees on the stack, in the order of the text. -/
def trees (c : Configuration) : List Tree := c.stack.reverse.map (·.tree)

end Configuration

/-- How a run ends, and the configuration it leaves. -/
inductive Outcome where
  | accepted (tree : Tree) (c : Configuration)
  | failed (error : Refusal) (c : Configuration)

/-- What one step leads to. -/
inductive Progress where
  | next (c : Configuration)
  | done (outcome : Outcome)

namespace Progress

def failed (error : Refusal) (c : Configuration) : Progress := done (.failed error c)

def accepted (tree : Tree) (c : Configuration) : Progress := done (.accepted tree c)

end Progress

namespace Parser

/-- The action on a token. A token that names no terminal of the grammar has none. -/
def action (p : Parser) (state : Nat) (token : Token) : Action :=
  match p.grammar.symbol? token.name with
  | some s => if p.grammar.isTerminal s then p.table.action state s else .error
  | none => .error

/-- The error of a token that the state has no action for. -/
def unexpected (p : Parser) (state : Nat) (token : Token) (scanner : Scanner) : Refusal :=
  let expected := (p.table.expected state).map p.grammar.name
  let position := scanner.lineTable.position token.span.start
  if token.isEnd then .unexpectedEnd token.span position expected
  else .unexpectedToken token.span position token.name expected

/-- The error of a reduction that the table does not allow. -/
def strayReduction (p : Parser) (state production : Nat) : Refusal :=
  .strayReduction state (((p.grammar.production? production).map (·.name)).getD "")

/-- The token ahead. A scanner that has finished goes on with the end of the text. -/
def lookahead (c : Configuration) : Except Unmatched Token × Configuration :=
  match c.ahead with
  | some token => (.ok token, c)
  | none =>
    let step := c.scanner.next
    let c := { c with scanner := step.scanner }
    match step.outcome with
    | some (.ok token) => (.ok token, { c with ahead := some token })
    | some (.error e) => (.error e, c)
    | none =>
      -- the end of the text has been read before, and nothing comes behind it
      let token := Token.endAt c.scanner.place
      (.ok token, { c with ahead := some token })

/-- Replace the trees of a right-hand side by a node of the production. -/
def reduce (p : Parser) (c : Configuration) (index : Nat) : Progress :=
  match p.grammar.production? index with
  | none => .failed (p.strayReduction c.state index) c
  | some production =>
    let popped := c.stack.take production.length
    -- the start state below the stack carries no tree and stays where it is
    if popped.length < production.length then .failed (p.strayReduction c.state index) c
    else
      let children := popped.reverse.map (·.tree)
      let exposed := { c with stack := c.stack.drop production.length }
      match p.table.goto? exposed.state production.lhs with
      | none => .failed (p.strayReduction exposed.state index) exposed
      | some target =>
        .next { exposed with
          stack := ⟨target, .node production children⟩ :: exposed.stack
          counts := { c.counts with
            nodes := c.counts.nodes + 1, reductions := c.counts.reductions + 1 } }

/-- Act on the token ahead. -/
def act (p : Parser) (c : Configuration) (token : Token) : Progress :=
  match p.action c.state token with
  | .shift target =>
    .next { c with
      stack := ⟨target, .leaf token⟩ :: c.stack
      ahead := none
      counts := { c.counts with
        tokens := c.counts.tokens + 1, nodes := c.counts.nodes + 1 } }
  | .reduce index => p.reduce c index
  | .accept =>
    match c.stack with
    | entry :: below => .accepted entry.tree { c with stack := below }
    | [] => .failed (p.unexpected c.state token c.scanner) c
  | .goto _ | .error => .failed (p.unexpected c.state token c.scanner) c

/-- One step. -/
def step (p : Parser) (c : Configuration) : Progress :=
  match lookahead c with
  | (.error e, c) => .failed (.lexer e) c
  | (.ok token, c) => p.act c token

/-- Go on until the text is accepted or refused, for at most `budget` steps. -/
def run (p : Parser) : Nat → Configuration → Option Outcome
  | 0, _ => none
  | budget + 1, c =>
    match p.step c with
    | .next c => p.run budget c
    | .done outcome => some outcome

/-- Enough steps for every run that ends. While the token ahead stays the same and the stack does
not sink below some height, a run that ends never grows by more entries than there are states and
never has the same entries on the stack twice. -/
def stepBudget (p : Parser) (text : List Char) : Nat :=
  Nat.pow (text.length + 2) 2 * Nat.pow (p.automaton.size + 2) (p.automaton.size + 4)

end Parser

end ShiftReduce
