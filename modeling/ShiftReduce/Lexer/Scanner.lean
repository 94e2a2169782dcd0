import ShiftReduce.Lexer.Basic
import ShiftReduce.Text.LineTable

/-!
# Scanners

A scanner reads one text token by token. Each match moves on by at least one character, changes the
mode as its rule says, and either completes a token or leaves text pending for the next one.
-/
namespace ShiftReduce

/-- No rule matches: where, the text that lies ahead, and the mode if it is not the initial one. -/
structure Unmatched where
  span : Text.Span
  position : Text.Position
  preview : String
  mode : Option String
deriving DecidableEq, Repr

def Unmatched.message (e : Unmatched) : String :=
  let inMode := match e.mode with
    | some mode => " in mode " ++ Fault.quoted mode
    | none => ""
  e.position.render ++ ": couldn't match any tokens with string \"" ++ e.preview ++ "\"" ++ inMode

/-- The active mode and the modes to go back to, innermost first. -/
structure ModeStack where
  top : String
  below : List String
deriving DecidableEq, Repr

namespace ModeStack

def initial : ModeStack := ⟨initialMode, []⟩

def change (s : ModeStack) : ModeChange → ModeStack
  | .enter mode => ⟨mode, s.top :: s.below⟩
  | .replace mode => ⟨mode, s.below⟩
  | .leave =>
    match s.below with
    | [] => s
    | mode :: below => ⟨mode, below⟩

def toList (s : ModeStack) : List String := s.top :: s.below

end ModeStack

/-- One application of a rule, in the mode that was active. -/
structure RuleMatch where
  rule : LexRule
  start : Nat
  text : List Char
  mode : String

namespace RuleMatch

def stop (m : RuleMatch) : Nat := m.start + Text.byteLength m.text

end RuleMatch

/-- Text handed on to the next token, and where its first match started. -/
structure Pending where
  start : Nat
  text : String
deriving DecidableEq, Repr

/-- A text being read: what lies ahead and at which offset, the modes, and pending text. A finished
scanner yields nothing more. -/
structure Scanner where
  lexer : Lexer
  source : List Char
  rest : List Char
  offset : Nat
  modes : ModeStack
  pending : Option Pending
  finished : Bool

def Lexer.scan (l : Lexer) (text : String) : Scanner :=
  ⟨l, text.toList, text.toList, 0, .initial, none, false⟩

/-- The outcome of asking a scanner for a token: the rules applied, the token or the error unless it
had finished before, text that was still pending at the end, and the scanner afterwards. -/
structure Advance where
  matched : List RuleMatch
  outcome : Option (Except Unmatched Token)
  discarded : Option Pending
  scanner : Scanner

namespace Scanner

/-- The offset of the next unread character. -/
def place (s : Scanner) : Nat := Text.offset s.offset

def mode (s : Scanner) : String := s.modes.top

def lineTable (s : Scanner) : Text.LineTable := .ofChars s.source

/-- The match to apply next. -/
def ahead? (s : Scanner) : Option RuleMatch :=
  (s.lexer.choose s.rest s.mode).map fun (rule, length) =>
    ⟨rule, s.offset, s.rest.take length, s.mode⟩

/-- Number of characters of unmatched text that an error shows. -/
def previewLength : Nat := 10

/-- The error of a scanner that no rule matches. -/
def noMatch (s : Scanner) : Unmatched where
  span := .between s.offset (s.offset + Text.byteLength (s.rest.take 1))
  position := s.lineTable.position s.place
  preview := Text.preview previewLength s.rest
  mode := if s.mode = initialMode then none else some s.mode

/-- Apply a match: the scanner behind it, and the token that it completes, if any. -/
def consume (s : Scanner) (m : RuleMatch) : Option Token × Scanner :=
  let modes := match m.rule.change with
    | some change => s.modes.change change
    | none => s.modes
  let s := { s with rest := s.rest.drop m.text.length, offset := m.stop, modes }
  -- the token begins where the first of its matches did
  let before := s.pending.getD ⟨m.start, ""⟩
  let text := if m.rule.skip then before.text else before.text ++ String.ofList m.text
  if m.rule.more then (none, { s with pending := some ⟨before.start, text⟩ })
  -- a skipped match leaves no token unless text is pending before it
  else if m.rule.skip ∧ text = "" then (none, { s with pending := none })
  else
    let value := match m.rule.transform with
      | some transform => transform text
      | none => .none
    (some ⟨m.rule.name, text, .between before.start s.offset, value⟩, { s with pending := none })

/-- The end of the text is reached. -/
def close (s : Scanner) (matched : List RuleMatch) : Advance where
  matched := matched.reverse
  outcome := some (.ok (.endAt (Text.offset s.offset)))
  discarded := s.pending.filter (·.text ≠ "")
  scanner := { s with pending := none, finished := true }

/-- Apply matches until a token is complete. Each takes at least one character, so there are at
most as many as characters in `budget`, which begins as the text ahead. -/
def advance : List Char → List RuleMatch → Scanner → Advance
  | [], matched, s => s.close matched
  | _ :: budget, matched, s =>
    if s.rest = [] then s.close matched
    else match s.ahead? with
      | none => ⟨matched.reverse, some (.error s.noMatch), none, { s with finished := true }⟩
      | some m =>
        match s.consume m with
        | (some token, s) => ⟨(m :: matched).reverse, some (.ok token), none, s⟩
        | (none, s) => advance budget (m :: matched) s

/-- Ask for the next token. The last one is the end of the text. -/
def next (s : Scanner) : Advance :=
  if s.finished then ⟨[], none, none, s⟩ else advance s.rest [] s

end Scanner

/-- All that reading a text to its end gives: the tokens, the rules applied, text that was still
pending, and what ended it early, if anything. -/
structure Tokenization where
  tokens : List Token
  matched : List RuleMatch
  discarded : Option Pending
  failure : Option Unmatched

namespace Scanner

/-- Ask for at most `budget` tokens; those read already come last first. -/
def drain : Nat → List Token → List RuleMatch → Scanner → Tokenization
  | 0, tokens, matched, _ => ⟨tokens.reverse, matched.reverse, none, none⟩
  | budget + 1, tokens, matched, s =>
    let step := s.next
    let matched := step.matched.reverse ++ matched
    match step.outcome with
    | none => ⟨tokens.reverse, matched.reverse, none, none⟩
    | some (.error e) => ⟨tokens.reverse, matched.reverse, none, some e⟩
    | some (.ok token) =>
      if step.scanner.finished then
        ⟨(token :: tokens).reverse, matched.reverse, step.discarded, none⟩
      else drain budget (token :: tokens) matched step.scanner

end Scanner

namespace Lexer

/-- Read a text to its end. Every token but the last takes at least one character. -/
def tokenization (l : Lexer) (text : String) : Tokenization :=
  (l.scan text).drain (text.length + 1) [] []

/-- All tokens of a text, the end of the text included. -/
def tokens (l : Lexer) (text : String) : Except Unmatched (List Token) :=
  let result := l.tokenization text
  match result.failure with
  | some e => .error e
  | none => .ok result.tokens

end Lexer

end ShiftReduce
