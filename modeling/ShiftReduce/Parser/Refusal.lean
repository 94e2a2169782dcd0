import ShiftReduce.Lexer.Scanner

/-!
# Refusals

Why a text has no tree, with the place and the terminals that would have been accepted there.
-/
namespace ShiftReduce

inductive Refusal where
  | unexpectedToken (span : Text.Span) (position : Text.Position) (found : String)
    (expected : List String)
  | unexpectedEnd (span : Text.Span) (position : Text.Position) (expected : List String)
  /-- A reduction exposed a state without an edge for its symbol. -/
  | strayReduction (state : Nat) (symbol : String)
  | lexer (error : Unmatched)
deriving DecidableEq, Repr

/-- Quoted names as a list in words. -/
def expectedList (names : List String) : String :=
  match names.map Fault.quoted with
  | [] => "nothing"
  | [a] => a
  | [a, b] => a ++ " or " ++ b
  | a :: rest => ", ".intercalate (a :: rest.dropLast) ++ ", or " ++ rest.getLast?.getD ""

namespace Refusal

/-- The span of the token at fault. -/
def span? : Refusal → Option Text.Span
  | unexpectedToken span .. | unexpectedEnd span .. => some span
  | strayReduction .. => none
  | lexer error => some error.span

/-- The terminals with an action in the failing state. -/
def expected : Refusal → List String
  | unexpectedToken _ _ _ expected | unexpectedEnd _ _ expected => expected
  | strayReduction .. | lexer _ => []

def message : Refusal → String
  | unexpectedToken _ position found expected =>
    position.render ++ ": unexpected " ++ Fault.quoted found ++ ", expected " ++
      expectedList expected
  | unexpectedEnd _ position expected =>
    position.render ++ ": unexpected end of input, expected " ++ expectedList expected
  | strayReduction state symbol =>
    "no goto entry for " ++ Fault.quoted symbol ++ " in state " ++ toString state
  | lexer error => error.message

/-- The stable code of each cause. -/
def code? : Refusal → Option String
  | unexpectedToken .. => some "parser::unexpected_token"
  | unexpectedEnd .. => some "parser::unexpected_eof"
  | strayReduction .. => some "parser::missing_goto"
  | lexer _ => none

end Refusal

/-- What to write below the span that an error points at. -/
def Unmatched.label (e : Unmatched) : String × Text.Span := ("no token starts here", e.span)

def Refusal.label? : Refusal → Option (String × Text.Span)
  | unexpectedToken span .. => some ("unexpected token", span)
  | unexpectedEnd span .. => some ("input ends here", span)
  | strayReduction .. => none
  | lexer error => some error.label

end ShiftReduce
