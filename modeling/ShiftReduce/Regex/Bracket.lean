import ShiftReduce.Regex.Escape

/-!
# Bracketed classes

A bracketed class lists characters, ranges and classes, and may be negated. An operation takes all
that stands to its left and the members to its right. Brackets may stand inside brackets; how deeply
they are nested is kept with the class, since there is a limit to it.
-/
namespace ShiftReduce.Regex

inductive SetOperation where
  | intersection
  | difference
  | symmetricDifference
deriving DecidableEq, Repr

def SetOperation.apply : SetOperation → CharClass → CharClass → CharClass
  | intersection => .intersection
  | difference => .difference
  | symmetricDifference => .symmetricDifference

/-- A class with the depth to which its written form is nested. -/
structure NestedClass where
  charClass : CharClass
  depth : Nat
deriving DecidableEq, Repr

/-- An open bracket: whether it is negated, the operation that waits for its right-hand side, and
the members since. Ranges are kept apart from other members, and the depth is that of the deepest
member. -/
structure Bracket where
  negated : Bool
  waiting : Option (SetOperation × NestedClass)
  ranges : List (Char × Char)
  classes : List CharClass
  depth : Nat

namespace Bracket

def fresh (negated : Bool) : Bracket := ⟨negated, none, [], [], 0⟩

def addRange (b : Bracket) (first last : Char) : Bracket :=
  { b with ranges := (first, last) :: b.ranges }

def addClass (b : Bracket) (c : NestedClass) : Bracket :=
  { b with classes := c.charClass :: b.classes, depth := max b.depth c.depth }

/-- The union of the members. -/
def members (b : Bracket) : NestedClass :=
  let several := 1 < b.ranges.length + b.classes.length
  ⟨b.classes.foldl .union (.ranges b.ranges), if several then b.depth + 1 else b.depth⟩

/-- All that stands in the bracket so far. -/
def body (b : Bracket) : NestedClass :=
  match b.waiting with
  | none => b.members
  | some (op, left) =>
    ⟨op.apply left.charClass b.members.charClass, max left.depth b.members.depth + 1⟩

def operate (b : Bracket) (op : SetOperation) : Bracket :=
  { fresh b.negated with waiting := some (op, b.body) }

def closed (b : Bracket) : NestedClass :=
  let inside := b.body
  ⟨if b.negated then .complement inside.charClass else inside.charClass, inside.depth + 1⟩

/-- Read what may only stand at the beginning of a bracket: the negation, hyphens, and a closing
bracket that stands for itself. -/
def opening (text : List Char) : Bracket × List Char :=
  let (negated, text) :=
    match text with
    | '^' :: rest => (true, rest)
    | _ => (false, text)
  let hyphens := text.takeWhile (· = '-')
  let rest := text.dropWhile (· = '-')
  let b := hyphens.foldl (fun b c => b.addRange c c) (fresh negated)
  match hyphens, rest with
  | [], ']' :: rest => (b.addRange ']' ']', rest)
  | _, _ => (b, rest)

end Bracket

/-- A member of a bracket that is not an operation: a character or a class. -/
def member : List Char → Reading (Char ⊕ CharClass)
  | [] => .error .unclosedClass
  | '\\' :: rest =>
    match escape rest with
    | .error e => .error e
    | .ok (.char c, rest) => .ok (.inl c, rest)
    | .ok (.set c, rest) => .ok (.inr c, rest)
    | .ok (.holds _, _) => .error .badEscape
  | c :: rest => .ok (.inl c, rest)

/-- Put a member, or a range from one to another, into a bracket. A hyphen before the closing
bracket or before another hyphen makes no range. -/
def Bracket.take (b : Bracket) (text : List Char) : Reading Bracket :=
  match member text with
  | .error e => .error e
  | .ok (first, rest) =>
    let alone := match first with
      | .inl c => b.addRange c c
      | .inr c => b.addClass ⟨c, 0⟩
    match rest with
    | [] => .error .unclosedClass
    | '-' :: ']' :: _ | '-' :: '-' :: _ => .ok (alone, rest)
    | '-' :: rest =>
      match member rest with
      | .error e => .error e
      | .ok (second, rest) =>
        match first, second with
        | .inl a, .inl c => if a ≤ c then .ok (b.addRange a c, rest) else .error .badRange
        | _, _ => .error .badRange
    | _ => .ok (alone, rest)

/-- The ASCII classes that are written `[:name:]` inside a bracket. -/
def asciiClass? (name : String) : Option CharClass :=
  match name with
  | "alnum" => some (.ranges [('0', '9'), ('A', 'Z'), ('a', 'z')])
  | "alpha" => some (.ranges [('A', 'Z'), ('a', 'z')])
  | "ascii" => some (.ranges [('\x00', '\x7f')])
  | "blank" => some (.ranges [('\t', '\t'), (' ', ' ')])
  | "cntrl" => some (.ranges [('\x00', '\x1f'), ('\x7f', '\x7f')])
  | "digit" => some (.ranges [('0', '9')])
  | "graph" => some (.ranges [('!', '~')])
  | "lower" => some (.ranges [('a', 'z')])
  | "print" => some (.ranges [(' ', '~')])
  | "punct" => some (.ranges [('!', '/'), (':', '@'), ('[', '\x60'), ('\x7b', '~')])
  | "space" => some (.ranges [('\t', '\r'), (' ', ' ')])
  | "upper" => some (.ranges [('A', 'Z')])
  | "word" => some (.ranges [('0', '9'), ('A', 'Z'), ('_', '_'), ('a', 'z')])
  | "xdigit" => some (.ranges [('0', '9'), ('A', 'F'), ('a', 'f')])
  | _ => none

/-- An ASCII class at the front of a text that stood behind `[`. -/
def asciiClassAhead? (text : List Char) : Option (CharClass × List Char) :=
  match text with
  | ':' :: text =>
    let (negated, text) := match text with
      | '^' :: text => (true, text)
      | _ => (false, text)
    let name := text.takeWhile (· ≠ ':')
    match text.dropWhile (· ≠ ':'), asciiClass? (String.ofList name) with
    | ':' :: ']' :: rest, some c => some (if negated then .complement c else c, rest)
    | _, _ => none
  | _ => none

/-- Read up to the bracket that closes the outermost of the open brackets. Every round reads at
least one character. -/
def bracket : Nat → Bracket → List Bracket → List Char → Reading NestedClass
  | 0, _, _, _ => .error .unclosedClass
  | budget + 1, b, outer, text =>
    match text with
    | [] => .error .unclosedClass
    | '[' :: rest =>
      match asciiClassAhead? rest with
      | some (c, rest) => bracket budget (b.addClass ⟨c, 0⟩) outer rest
      | none =>
        -- a bracket inside a bracket is a member of the outer one
        let (inner, rest) := Bracket.opening rest
        bracket budget inner (b :: outer) rest
    | ']' :: rest =>
      match outer with
      | [] => .ok (b.closed, rest)
      | parent :: outer => bracket budget (parent.addClass b.closed) outer rest
    | '&' :: '&' :: rest => bracket budget (b.operate .intersection) outer rest
    | '-' :: '-' :: rest => bracket budget (b.operate .difference) outer rest
    | '~' :: '~' :: rest => bracket budget (b.operate .symmetricDifference) outer rest
    | _ =>
      match b.take text with
      | .error e => .error e
      | .ok (b, rest) => bracket budget b outer rest

end ShiftReduce.Regex
