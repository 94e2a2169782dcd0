import ShiftReduce.Grammar.Fault
import ShiftReduce.Lexer.Rule

/-!
# Lexers

A lexer is a list of rules whose patterns are ready to be matched. At any place in a text it picks
one rule of the active mode that matches there.
-/
namespace ShiftReduce

/-- A pattern ready to be matched. -/
inductive Recogniser where
  | literal (text : List Char)
  | regex (m : Regex.Matcher)

namespace Recogniser

/-- Number of characters that match at the beginning of a text. -/
def reach (m : Recogniser) (rest : List Char) : Option Nat :=
  match m with
  | literal text => if text.isPrefixOf rest then some text.length else none
  | regex m => m.find rest

/-- A pattern as a regular expression that only matches where the text begins. -/
def regexSource (insensitive : Bool) (p : Pattern) : List Char :=
  "\\A".toList ++ (if insensitive then "(?i)".toList else []) ++ "(?:".toList ++ p.source ++ [')']

/-- Make one pattern of the token `token` ready. -/
def ofPattern (engine : Regex.Engine) (token : String) (insensitive : Bool) (p : Pattern) :
    Except Fault Recogniser :=
  if p = .literal "" then .error (.emptyPattern token)
  else match p, insensitive with
    | .literal text, false => .ok (.literal text.toList)
    | _, _ =>
      match engine.compile (regexSource insensitive p) with
      | .ok m => .ok (.regex m)
      | .error e => .error (.invalidPattern token e.message)

end Recogniser

/-- A rule with its patterns ready to be matched. -/
structure ReadyRule where
  rule : LexRule
  recognisers : List Recogniser

namespace ReadyRule

def ofRule (engine : Regex.Engine) (rule : LexRule) : Except Fault ReadyRule :=
  (rule.patterns.mapM (Recogniser.ofPattern engine rule.name rule.insensitive)).map (⟨rule, ·⟩)

/-- The length of the first pattern's match that is not empty. -/
def reach (r : ReadyRule) (rest : List Char) : Option Nat :=
  r.recognisers.findSome? fun m => (m.reach rest).filter (0 < ·)

end ReadyRule

structure Lexer where
  rules : List ReadyRule
  preference : Preference

namespace Lexer

/-! ## Matching -/

/-- The matches at the beginning of a text in a mode, in rule order. -/
def candidates (l : Lexer) (rest : List Char) (mode : String) : List (LexRule × Nat) :=
  l.rules.filterMap fun r =>
    if r.rule.mode = mode then (r.reach rest).map (r.rule, ·) else none

/-- The longest match, of equally long ones the first. -/
def longest : List (LexRule × Nat) → Option (LexRule × Nat)
  | [] => none
  | first :: rest =>
    match longest rest with
    -- a later rule has to match more than the earlier one
    | some best => if first.2 < best.2 then some best else some first
    | none => some first

/-- The rule to apply at the beginning of a text, and the length of its match. -/
def choose (l : Lexer) (rest : List Char) (mode : String) : Option (LexRule × Nat) :=
  match l.preference with
  | .longest => longest (l.candidates rest mode)
  | .earliest => (l.candidates rest mode).head?

/-! ## Building -/

/-- No name is reserved or occurs twice. -/
def checkNames (seen : List String) : List LexRule → Except Fault Unit
  | [] => .ok ()
  | rule :: rest =>
    if rule.name = endName then .error (.reservedName rule.name)
    else if rule.name ∈ seen then .error (.duplicateToken rule.name)
    else checkNames (rule.name :: seen) rest

/-- Every change of mode names one of the known modes. -/
def checkModes (modes : List String) : List LexRule → Except Fault Unit
  | [] => .ok ()
  | rule :: rest =>
    match rule.change.bind (·.target?) with
    | some mode =>
      if mode ∈ modes then checkModes modes rest else .error (.unknownMode rule.name mode)
    | none => checkModes modes rest

/-- Check a list of rules and make them ready. -/
def ofRules (engine : Regex.Engine) (preference : Preference) (rules : List LexRule) :
    Except Fault Lexer := do
  checkNames [] rules
  checkModes (initialMode :: rules.map (·.mode)) rules
  let ready ← rules.mapM (ReadyRule.ofRule engine)
  return ⟨ready, preference⟩

/-! ## Reading and changing the rules -/

def ruleList (l : Lexer) : List LexRule := l.rules.map (·.rule)

def rule? (l : Lexer) (name : String) : Option LexRule := l.ruleList.find? (·.name = name)

/-- The mode that a further rule changes to, if it is neither the initial mode nor that of the rule
or of one of the lexer. -/
def unknownMode? (l : Lexer) (rule : LexRule) : Option String :=
  (rule.change.bind (·.target?)).filter fun mode =>
    mode ≠ initialMode && mode ≠ rule.mode && l.ruleList.all (·.mode ≠ mode)

/-- Append a rule. The outcome comes with the lexer afterwards. -/
def addRule (engine : Regex.Engine) (l : Lexer) (rule : LexRule) : Except Fault Unit × Lexer :=
  if rule.name = endName then (.error (.reservedName rule.name), l)
  else if (l.rule? rule.name).isSome then (.error (.duplicateToken rule.name), l)
  else
    match l.unknownMode? rule with
    | some mode => (.error (.unknownMode rule.name mode), l)
    | none =>
      match ReadyRule.ofRule engine rule with
      | .ok ready => (.ok (), { l with rules := l.rules ++ [ready] })
      | .error e => (.error e, l)

/-- The lexer with a rule appended, if it is not refused. -/
def extend (engine : Regex.Engine) (l : Lexer) (rule : LexRule) : Except Fault Lexer :=
  match l.addRule engine rule with
  | (.ok (), l) => .ok l
  | (.error e, _) => .error e

/-- The lexer after a rule has been offered to it, refused or not. -/
def offered (engine : Regex.Engine) (l : Lexer) (rule : LexRule) : Lexer :=
  (l.addRule engine rule).2

/-- The lexer without the rule of a name. -/
def without (l : Lexer) (name : String) : Lexer :=
  { l with rules := l.rules.filter (·.rule.name ≠ name) }

end Lexer

end ShiftReduce
