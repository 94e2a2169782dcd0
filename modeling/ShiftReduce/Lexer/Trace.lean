import ShiftReduce.Lexer.Scanner

/-!
# Lexer traces

A trace lists every rule that was applied to a text, with its place, its mode and what it matched.
-/
namespace ShiftReduce

/-- One line of a trace. -/
structure TraceLine where
  position : Text.Position
  span : Text.Span
  rule : String
  mode : String
  text : String
deriving DecidableEq, Repr

namespace TraceLine

def ofMatch (lines : Text.LineTable) (m : RuleMatch) : TraceLine where
  position := lines.position (Text.offset m.start)
  span := .between m.start m.stop
  rule := m.rule.name
  mode := m.mode
  text := String.ofList m.text

/-- Fill a column with blanks up to a width. -/
def column (width : Nat) (text : String) : String :=
  text ++ String.ofList (List.replicate (width - text.length) ' ')

def render (e : TraceLine) : String :=
  column 6 (toString (e.position.line + 1)) ++ column 6 (toString (e.position.column + 1)) ++
    column 6 (toString e.span.length) ++ column 16 e.rule ++ Text.quote e.text

end TraceLine

/-- A scanner that keeps a trace, or none. -/
structure TracedScanner where
  scanner : Scanner
  lines : Text.LineTable
  trace : Option (List TraceLine)

namespace TracedScanner

def ofScanner (s : Scanner) (traced : Bool) : TracedScanner :=
  ⟨s, s.lineTable, if traced then some [] else none⟩

/-- Ask for a token and add the rules applied to the trace. -/
def next (s : TracedScanner) : Advance × TracedScanner :=
  let step := s.scanner.next
  let entries := step.matched.map (TraceLine.ofMatch s.lines)
  (step, { s with scanner := step.scanner, trace := s.trace.map (· ++ entries) })

/-- The trace since it was last taken. -/
def take (s : TracedScanner) : List TraceLine × TracedScanner :=
  (s.trace.getD [], { s with trace := s.trace.map fun _ => [] })

end TracedScanner

/-- All tokens of a text and the trace of reading it. -/
def Lexer.tokensAndTrace (l : Lexer) (text : String) :
    Except Unmatched (List Token × List TraceLine) :=
  let result := l.tokenization text
  match result.failure with
  | some e => .error e
  | none =>
    .ok (result.tokens, result.matched.map (TraceLine.ofMatch (.ofString text)))

end ShiftReduce
