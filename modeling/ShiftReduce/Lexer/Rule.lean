import ShiftReduce.Lexer.Pattern
import ShiftReduce.Token

/-!
# Token rules

A rule names a token, its patterns, the mode it belongs to and what happens when it matches.
-/
namespace ShiftReduce

/-- The mode in which every text begins. -/
def initialMode : String := "default"

/-- A change of mode after a match. -/
inductive ModeChange where
  /-- Enter a mode, with the current one to go back to. -/
  | enter (mode : String)
  /-- Go back to the mode below, if there is one. -/
  | leave
  /-- Go over to another mode in place of the current one. -/
  | replace (mode : String)
deriving DecidableEq, Repr

/-- The mode that a change names. -/
def ModeChange.target? : ModeChange → Option String
  | enter mode | replace mode => some mode
  | leave => none

/-- Which of several matching rules is applied. -/
inductive Preference where
  /-- The one with the longest match, of equally long ones the earliest. -/
  | longest
  /-- The earliest. -/
  | earliest
deriving DecidableEq, Repr

/-- A token, its patterns in order of preference, and its flags. The text of a `skip` rule is
dropped; a `more` rule hands its text on to the next token. -/
structure LexRule where
  name : String
  patterns : List Pattern
  skip : Bool
  more : Bool
  insensitive : Bool
  mode : String
  change : Option ModeChange
  transform : Option (String → Value)

namespace LexRule

/-- A rule without flags. -/
def plain (name : String) (pattern : Pattern) : LexRule :=
  ⟨name, [pattern], false, false, false, initialMode, none, none⟩

/-- A rule whose token is its own name. -/
def ofLiteral (name : String) : LexRule := plain name (.literal name)

end LexRule

/-! ## Listing rules -/

/-- A list in brackets. -/
def bracketed (items : List String) : String := "[" ++ ", ".intercalate items ++ "]"

def CharRanges.describe (s : CharRanges) : String :=
  let pair (r : Char × Char) := "(" ++ Text.quoteChar r.1 ++ ", " ++ Text.quoteChar r.2 ++ ")"
  "CharSet \x7b ranges: " ++ bracketed (s.ranges.map pair) ++ " \x7d"

def Pattern.describe : Pattern → String
  | literal text => "Literal(" ++ Text.quote text ++ ")"
  | oneOf set => "CharClass(" ++ set.describe ++ ")"
  | counted pattern min max =>
    let bound := match max with
      | some max => "Some(" ++ toString max ++ ")"
      | none => "None"
    "Repeat \x7b pattern: " ++ pattern.describe ++ ", min: " ++ toString min ++ ", max: " ++
      bound ++ " \x7d"
  | regex source => "Regex(" ++ Text.quote source ++ ")"
  | any => "Any"

def ModeChange.describe : ModeChange → String
  | enter mode => "Push(" ++ Text.quote mode ++ ")"
  | leave => "Pop"
  | replace mode => "Set(" ++ Text.quote mode ++ ")"

/-- All that a rule consists of, on one line. -/
def LexRule.describe (r : LexRule) : String :=
  let change := match r.change with
    | some change => "Some(" ++ change.describe ++ ")"
    | none => "None"
  "TokenRule \x7b name: " ++ Text.quote r.name ++ ", patterns: " ++
    bracketed (r.patterns.map Pattern.describe) ++ ", skip: " ++ toString r.skip ++ ", more: " ++
    toString r.more ++ ", insensitive: " ++ toString r.insensitive ++ ", mode: " ++
    Text.quote r.mode ++ ", command: " ++ change ++ ", transform: " ++
    toString r.transform.isSome ++ " \x7d"

end ShiftReduce
