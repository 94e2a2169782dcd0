import ShiftReduce.Grammar.Symbol
import ShiftReduce.Text.Quoted
import ShiftReduce.Text.Span

/-!
# Tokens

A token stands for a terminal of the grammar: the name of that terminal, the text it was read from,
and where that text lies.
-/
namespace ShiftReduce

/-- The value that a token's text was turned into, if any. -/
inductive Value where
  | none
  | integer (value : Int)
  | float (value : Float)
  | string (value : String)
  | char (value : Char)
  | bool (value : Bool)
deriving BEq, Inhabited

structure Token where
  name : String
  text : String
  span : Text.Span
  value : Value
deriving BEq, Inhabited

namespace Token

/-- The token for the end of the input, at an offset. -/
def endAt (offset : Nat) : Token := ⟨endName, "", Text.Span.emptyAt offset, .none⟩

def isEnd (t : Token) : Bool := t.name = endName

/-- The name, and the text if there is any. -/
def render (t : Token) : String :=
  if t.text = "" then t.name else t.name ++ " " ++ Text.quote t.text

end Token

end ShiftReduce
