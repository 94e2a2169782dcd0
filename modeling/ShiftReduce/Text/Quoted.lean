import ShiftReduce.Text.Combining
import ShiftReduce.Text.Printable

/-!
# Escaped text

Text in messages is shown with escapes for characters that could be misread: control characters,
characters without a mark of their own, and characters that attach to the one before them.
-/
namespace ShiftReduce.Text

/-- Which characters are escaped beside the unprintable ones. -/
structure EscapeRule where
  singleQuote : Bool
  doubleQuote : Bool
  combining : Bool

/-- A code point by its number, as few lower-case hexadecimal digits as possible. -/
def escapeNumber (c : Char) : String :=
  "\\u\x7b" ++ String.ofList (Nat.toDigits 16 c.toNat) ++ "\x7d"

def escapeChar (rule : EscapeRule) (c : Char) : String :=
  if c = '\x00' then "\\0"
  else if c = '\t' then "\\t"
  else if c = '\r' then "\\r"
  else if c = '\n' then "\\n"
  else if c = '\\' then "\\\\"
  else if c = '"' ∧ rule.doubleQuote then "\\\""
  else if c = '\'' ∧ rule.singleQuote then "\\'"
  else if isCombining c ∧ rule.combining then escapeNumber c
  else if isUnprintable c then escapeNumber c
  else c.toString

/-- Text in double quotes. -/
def quote (s : String) : String :=
  "\"" ++ String.join (s.toList.map (escapeChar ⟨false, true, true⟩)) ++ "\""

/-- A character in single quotes. -/
def quoteChar (c : Char) : String := "'" ++ escapeChar ⟨true, false, true⟩ c ++ "'"

/-- Text without quotes around it, but with both quotes escaped. A combining character has a
character to attach to unless it is the first one. -/
def escapeBare : List Char → String
  | [] => ""
  | c :: rest =>
    escapeChar ⟨true, true, true⟩ c ++ String.join (rest.map (escapeChar ⟨true, true, false⟩))

/-- The beginning of some escaped text: at most `limit` characters, and dots for what was cut. -/
def preview (limit : Nat) (rest : List Char) : String :=
  -- each character leaves at least one, so no more of the text is needed to see that it is cut
  let escaped := (escapeBare (rest.take (limit + 1))).toList
  if limit < escaped.length then String.ofList (escaped.take limit) ++ "..."
  else String.ofList escaped

end ShiftReduce.Text
