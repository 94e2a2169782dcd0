import ShiftReduce.Table.Basic
import ShiftReduce.Lexer.Scanner

/-!
# Journal events

What happens while a frontend is built and a text is read, as events with a severity and a wording.
-/
namespace ShiftReduce

/-- How much a message matters, the most severe first. -/
inductive Severity where
  | warn
  | debug
  | trace
deriving DecidableEq, Repr

namespace Severity

def rank : Severity → Nat
  | warn => 0
  | debug => 1
  | trace => 2

def render : Severity → String
  | warn => "WARN"
  | debug => "DEBUG"
  | trace => "TRACE"

end Severity

inductive Event where
  | rulesFlattened (rules productions literals : Nat)
  | rulesCompiled (rules : Nat)
  | augmented (production : Production)
  | terminalRegistered (name : String)
  | analysed (passes productions : Nat)
  | analysisFinished (passes : Nat)
  | collectionBuilt (states : Nat)
  | statesMerged (canonical merged : Nat)
  | conflictFound (conflict : Conflict)
  | tableBuilt (states conflicts : Nat)
  | parserReady (productions states conflicts : Nat)
  | ruleApplied (start : Nat) (rule text : String)
  | textDiscarded (text : String) (start : Nat)
  | stepTaken (state : Nat) (token : Token) (action : Action)

namespace Event

def severity : Event → Severity
  | conflictFound _ | textDiscarded .. => .warn
  | ruleApplied .. | stepTaken .. => .trace
  | _ => .debug

def message : Event → String
  | rulesFlattened rules productions literals =>
    "lowered " ++ toString rules ++ " rules into " ++ toString productions ++ " productions (" ++
      toString literals ++ " literal tokens)"
  | rulesCompiled rules => "compiled " ++ toString rules ++ " lexer rules"
  | augmented production => "augmented grammar with " ++ production.render
  | terminalRegistered name => "registering literal token " ++ Text.quote name
  | analysed passes productions =>
    "nullable/FIRST fixpoint reached after " ++ toString passes ++ " passes over " ++
      toString productions ++ " productions"
  | analysisFinished passes => "nullable/FIRST fixpoint took " ++ toString passes ++ " passes"
  | collectionBuilt states => "canonical LR(1) collection has " ++ toString states ++ " states"
  | statesMerged canonical merged =>
    "merged " ++ toString canonical ++ " canonical states into " ++ toString merged ++
      " LALR(1) states"
  | conflictFound conflict => conflict.render
  | tableBuilt states conflicts =>
    "built table with " ++ toString states ++ " states and " ++ toString conflicts ++ " conflicts"
  | parserReady productions states conflicts =>
    "parser ready: " ++ toString productions ++ " productions, " ++ toString states ++
      " states, " ++ toString conflicts ++ " conflicts"
  | ruleApplied start rule text => toString start ++ ": " ++ rule ++ " matched " ++ Text.quote text
  | textDiscarded text start =>
    "discarding unfinished token text " ++ Text.quote text ++ " starting at offset " ++
      toString start
  | stepTaken state token action =>
    "state " ++ toString state ++ ", lookahead " ++ token.render ++ ": " ++ action.describe

/-- The event as a line of a journal. -/
def render (e : Event) : String := e.severity.render ++ " " ++ e.message

end Event

/-- The lines of a journal that are at least as severe as `level`. -/
def journalLines (level : Severity) (events : List Event) : List String :=
  (events.filter (·.severity.rank ≤ level.rank)).map Event.render

end ShiftReduce
