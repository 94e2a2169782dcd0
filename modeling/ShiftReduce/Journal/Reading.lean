import ShiftReduce.Journal.Event
import ShiftReduce.Parser.Report

/-!
# Events of reading

The events of reading a text: every rule applied, text that is dropped at the end, and every step of
the parser.
-/
namespace ShiftReduce

def RuleMatch.event (m : RuleMatch) : Event :=
  .ruleApplied m.start m.rule.name (String.ofList m.text)

def Pending.event (p : Pending) : Event := .textDiscarded p.text p.start

def Advance.events (a : Advance) : List Event :=
  a.matched.map RuleMatch.event ++ a.discarded.toList.map Pending.event

def Tokenization.events (t : Tokenization) : List Event :=
  t.matched.map RuleMatch.event ++ t.discarded.toList.map Pending.event

namespace Parser

def stepEvents (p : Parser) (c : Configuration) : List Event :=
  let reading := if c.ahead.isSome then [] else c.scanner.next.events
  match lookahead c with
  | (.ok token, c) => reading ++ [.stepTaken c.state token (p.action c.state token)]
  | (.error _, _) => reading

/-- The events of at most `budget` steps, behind those there are already, which are listed last
first. -/
def runEvents (p : Parser) : Nat → List Event → Configuration → List Event
  | 0, events, _ => events.reverse
  | budget + 1, events, c =>
    let events := (p.stepEvents c).reverse ++ events
    match p.step c with
    | .next c => p.runEvents budget events c
    | .done _ => events.reverse

/-- The events of parsing what a scanner reads. -/
def readingEvents (p : Parser) (scanner : Scanner) : List Event :=
  p.runEvents (p.stepBudget scanner.source) [] (.start scanner)

end Parser

end ShiftReduce
