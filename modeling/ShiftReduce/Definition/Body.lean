/-!
# Rule bodies

The body of a rule is an expression over literals, tokens and rules, all referred to by name, so
rules can be recursive and can be defined in any order.
-/
namespace ShiftReduce

inductive Body where
  /-- Nothing. -/
  | empty
  /-- Exactly this text, which is also the name of its terminal. -/
  | literal (text : String)
  /-- A declared token. -/
  | token (name : String)
  /-- A rule. -/
  | rule (name : String)
  /-- All of them, in order. -/
  | seq (items : List Body)
  /-- One of them. -/
  | choice (alternatives : List Body)
  /-- The expression or nothing. -/
  | opt (body : Body)
  /-- The expression `min` to `max` times, without bound if there is no `max`. -/
  | counted (body : Body) (min : Nat) (max : Option Nat)
deriving Repr, Inhabited

namespace Body

/-- A sequence; one of a single expression is that expression. -/
def sequence : List Body → Body
  | [e] => e
  | items => seq items

/-- Any number of times. -/
def star (e : Body) : Body := counted e 0 none

/-- At least once. -/
def plus (e : Body) : Body := counted e 1 none

/-- One or more items with separators between them. -/
def separatedBy (item separator : Body) : Body := sequence [item, star (sequence [separator, item])]

/-- Content between two brackets. -/
def enclosed (opening content closing : Body) : Body := sequence [opening, content, closing]

end Body

end ShiftReduce
