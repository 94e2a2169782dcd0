import ShiftReduce.Regex.Basic
import ShiftReduce.Regex.Engine

/-!
# Escapes of regular expressions

Behind a backslash stands a character that would otherwise have a meaning, or a letter that stands
for a character, a class or a condition. What cannot be read is told by a syntax error.
-/
namespace ShiftReduce.Regex

/-- Why a written expression has no meaning. -/
inductive SyntaxError where
  | unclosedGroup
  | unopenedGroup
  | unclosedClass
  | unclosedRepetition
  | nothingToRepeat
  | badRepetition
  | badRange
  | badEscape
  | badFlags
  | badGroupName
  | lookAround
  | tooDeep
  | tooLong
deriving DecidableEq, Repr

def SyntaxError.message : SyntaxError → String
  | unclosedGroup => "a group is not closed"
  | unopenedGroup => "a group is closed that was not opened"
  | unclosedClass => "a character class is not closed"
  | unclosedRepetition => "a counted repetition is not closed"
  | nothingToRepeat => "there is nothing to repeat"
  | badRepetition => "the bounds of a repetition are not in order"
  | badRange => "a character range has no order"
  | badEscape => "an escape has no meaning"
  | badFlags => "a list of flags has no meaning"
  | badGroupName => "a group has no proper name"
  | lookAround => "looking around is not supported"
  | tooDeep => "the expression is nested too deeply"
  | tooLong => "the expression is too long"

/-- The result of reading something off the front of a text, and the text behind it. -/
abbrev Reading (α : Type) := Except SyntaxError (α × List Char)

/-- A backslash may also stand before any other ASCII character that is no letter or digit, angle
brackets excepted. -/
def isEscapable (c : Char) : Bool :=
  isMeta c || (c.toNat < 128 && !c.isAlphanum && c ≠ '<' && c ≠ '>')

def hexValue? (c : Char) : Option Nat :=
  if c.isDigit then some (c.toNat - '0'.toNat)
  else if 'a' ≤ c ∧ c ≤ 'f' then some (c.toNat - 'a'.toNat + 10)
  else if 'A' ≤ c ∧ c ≤ 'F' then some (c.toNat - 'A'.toNat + 10)
  else none

/-- The character with a given hexadecimal number. -/
def hexChar? (digits : List Char) : Option Char := do
  let values ← digits.mapM hexValue?
  let number := values.foldl (fun n d => 16 * n + d) 0
  if values ≠ [] ∧ values.length ≤ 8 ∧ number.isValidChar then some (Char.ofNat number) else none

/-- A character by number: `width` digits, or any number of digits in braces. -/
def hexEscape (width : Nat) (text : List Char) : Reading Char :=
  let (digits, rest) :=
    match text with
    | '\x7b' :: inside => (inside.takeWhile (· ≠ '\x7d'), inside.dropWhile (· ≠ '\x7d') |>.drop 1)
    | _ => (text.take width, text.drop width)
  let closed := text.head? ≠ some '\x7b' ∨ '\x7d' ∈ text
  match hexChar? digits with
  | some c =>
    if closed ∧ (text.head? = some '\x7b' ∨ digits.length = width) then .ok (c, rest)
    else .error .badEscape
  | none => .error .badEscape

/-- What may stand behind a backslash. -/
inductive Escape where
  | char (c : Char)
  | set (c : CharClass)
  | holds (a : Assertion)

/-- Read an escape, behind its backslash. -/
def escape : List Char → Reading Escape
  | [] => .error .badEscape
  | c :: rest =>
    match c with
    | 'd' => .ok (.set (.named .digit), rest)
    | 's' => .ok (.set (.named .blank), rest)
    | 'w' => .ok (.set (.named .word), rest)
    | 'D' => .ok (.set (.complement (.named .digit)), rest)
    | 'S' => .ok (.set (.complement (.named .blank)), rest)
    | 'W' => .ok (.set (.complement (.named .word)), rest)
    | 'a' => .ok (.char '\x07', rest)
    | 'f' => .ok (.char '\x0c', rest)
    | 't' => .ok (.char '\t', rest)
    | 'n' => .ok (.char '\n', rest)
    | 'r' => .ok (.char '\r', rest)
    | 'v' => .ok (.char '\x0b', rest)
    | 'A' => .ok (.holds .textStart, rest)
    | 'z' => .ok (.holds .textEnd, rest)
    | 'b' => .ok (.holds .wordBoundary, rest)
    | 'B' => .ok (.holds .noWordBoundary, rest)
    | '<' => .ok (.holds .wordStart, rest)
    | '>' => .ok (.holds .wordEnd, rest)
    | 'x' => (hexEscape 2 rest).map fun (c, rest) => (.char c, rest)
    | 'u' => (hexEscape 4 rest).map fun (c, rest) => (.char c, rest)
    | 'U' => (hexEscape 8 rest).map fun (c, rest) => (.char c, rest)
    | c => if isEscapable c then .ok (.char c, rest) else .error .badEscape

end ShiftReduce.Regex
