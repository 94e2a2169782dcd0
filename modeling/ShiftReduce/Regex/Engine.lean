/-!
# Engines for regular expressions

Compiling regular expressions and looking for their matches is left to an engine. What is compiled
tells how far the leftmost match in a text goes. How that is done is up to the engine.
-/
namespace ShiftReduce.Regex

/-- Characters with a meaning of their own, which lose it behind a backslash. -/
def isMeta (c : Char) : Bool := c ∈ "\\.+*?()|[]\x7b\x7d^$#&-~".toList

/-- A compiled expression. The match that it finds in a text ends within it, between two characters:
`find` gives the number of characters before that place. -/
structure Matcher where
  find : List Char → Option Nat
  within : ∀ text n, find text = some n → n ≤ text.length

/-- Why an expression is not compiled. -/
inductive Error where
  /-- It is no expression. -/
  | malformed (message : String)
  /-- What it is compiled to has more bytes than the limit. -/
  | tooBig (limit : Nat)
deriving DecidableEq, Repr

def Error.message : Error → String
  | malformed message => message
  | tooBig limit => "Compiled regex exceeds size limit of " ++ toString limit ++ " bytes."

/-- An engine compiles the written form of an expression. -/
structure Engine where
  compile : List Char → Except Error Matcher

end ShiftReduce.Regex
