import ShiftReduce.Regex.Building
import ShiftReduce.Regex.Lexeme

/-!
# From lexemes to expressions

Lexemes are assembled from left to right. A group under construction holds its finished branches
and the pieces of its current branch; opening a group sets the surrounding one aside. Flags set in a
group hold for the rest of that group. Every piece knows how deeply its written form is nested.
-/
namespace ShiftReduce.Regex

/-- How the following lexemes are to be understood. -/
structure Flags where
  ignoreCase : Bool
  multiLine : Bool
  dotAll : Bool
  swapLazy : Bool
deriving DecidableEq, Repr

def Flags.plain : Flags := ⟨false, false, false, false⟩

def Flags.changed (flags : Flags) (change : FlagChange) : Flags where
  ignoreCase := change.ignoreCase.getD flags.ignoreCase
  multiLine := change.multiLine.getD flags.multiLine
  dotAll := change.dotAll.getD flags.dotAll
  swapLazy := change.swapLazy.getD flags.swapLazy

/-- An expression with the depth to which its written form is nested. -/
structure NestedRegex where
  regex : Regex
  depth : Nat

/-- The greatest depth to which an expression may be nested. -/
def depthLimit : Nat := 250

namespace NestedRegex

/-- Parts put together to one expression, which is nested more deeply than several parts are. -/
def join (build : List Regex → Regex) (parts : List NestedRegex) : NestedRegex :=
  let depth := (parts.map (·.depth)).foldl max 0
  ⟨build (parts.map (·.regex)), if 1 < parts.length then depth + 1 else depth⟩

end NestedRegex

/-- A piece of a branch. A repetition may still be made lazy by a question mark; a change of flags
is no piece that could be repeated. -/
inductive Piece where
  | whole (r : NestedRegex)
  | counted (r : NestedRegex) (min : Nat) (max : Option Nat) (isLazy : Bool)
  | flagChange

def Piece.regex : Piece → NestedRegex
  | whole r => r
  | counted r min max isLazy => ⟨r.regex.times min max isLazy, r.depth + 1⟩
  | flagChange => ⟨empty, 0⟩

/-- A group under construction: its number if it is counted, the flags in force, the finished
branches and the pieces of the current one, each last first. -/
structure Group where
  number : Option Nat
  flags : Flags
  branches : List NestedRegex
  pieces : List Piece

namespace Group

def fresh (number : Option Nat) (flags : Flags) : Group := ⟨number, flags, [], []⟩

def add (g : Group) (r : Regex) (depth : Nat) : Group :=
  { g with pieces := .whole ⟨r, depth⟩ :: g.pieces }

/-- The current branch as one expression. -/
def branch (g : Group) : NestedRegex := .join inOrder (g.pieces.reverse.map Piece.regex)

def nextBranch (g : Group) : Group := { g with branches := g.branch :: g.branches, pieces := [] }

/-- What stands in the group as one expression. -/
def inside (g : Group) : NestedRegex := .join anyOf (g.branch :: g.branches).reverse

/-- The group as one expression. -/
def closed (g : Group) : NestedRegex :=
  let r := g.inside
  match g.number with
  | some number => ⟨.captured number r.regex, r.depth + 1⟩
  | none => ⟨r.regex, r.depth + 1⟩

/-- Repeat the last piece. -/
def repeatLast (g : Group) (min : Nat) (max : Option Nat) : Except SyntaxError Group :=
  match g.pieces with
  | [] | .flagChange :: _ => .error .nothingToRepeat
  | piece :: rest =>
    let r := piece.regex
    if r.depth < depthLimit then
      .ok { g with pieces := .counted r min max g.flags.swapLazy :: rest }
    else .error .tooDeep

/-- A question mark makes a repetition lazy and any other piece optional. -/
def question (g : Group) : Except SyntaxError Group :=
  match g.pieces with
  | .counted r min max isLazy :: rest =>
    .ok { g with pieces := .whole (Piece.counted r min max (!isLazy)).regex :: rest }
  | _ => g.repeatLast 0 (some 1)

/-- A character class under the flags in force. -/
def addSet (g : Group) (c : CharClass) (depth : Nat) : Group :=
  g.add (ofSet (c.set g.flags.ignoreCase)) depth

end Group

/-- The group being read, the groups around it, innermost first, and how many groups have been
counted. -/
structure Assembly where
  current : Group
  outer : List Group
  count : Nat

namespace Assembly

def start : Assembly := ⟨Group.fresh none .plain, [], 0⟩

def withCurrent (a : Assembly) (g : Group) : Assembly := { a with current := g }

/-- Take in one more lexeme. -/
def feed (a : Assembly) (l : Lexeme) : Except SyntaxError Assembly :=
  let g := a.current
  match l with
  | .char c => .ok (a.withCurrent (g.addSet (.single c) 0))
  | .set c depth => .ok (a.withCurrent (g.addSet c depth))
  | .dot =>
    let c := if g.flags.dotAll then .everything else .complement (.single '\n')
    .ok (a.withCurrent (g.addSet c 0))
  | .holds h => .ok (a.withCurrent (g.add (.holds h) 0))
  | .caret =>
    let h := if g.flags.multiLine then .startOf else .textStart
    .ok (a.withCurrent (g.add (.holds h) 0))
  | .dollar =>
    let h := if g.flags.multiLine then .lineEnd else .textEnd
    .ok (a.withCurrent (g.add (.holds h) 0))
  | .flags change =>
    .ok (a.withCurrent
      { g with flags := g.flags.changed change, pieces := .flagChange :: g.pieces })
  -- flags set inside a group end with it, since the surrounding group keeps its own
  | .open (.captured _) => .ok ⟨Group.fresh (some a.count) g.flags, g :: a.outer, a.count + 1⟩
  | .open (.plain change) =>
    .ok ⟨Group.fresh none (g.flags.changed change), g :: a.outer, a.count⟩
  | .close =>
    match a.outer with
    | [] => .error .unopenedGroup
    | parent :: outer =>
      let r := g.closed
      .ok ⟨parent.add r.regex r.depth, outer, a.count⟩
  | .bar => .ok (a.withCurrent g.nextBranch)
  | .repetition min max => (g.repeatLast min max).map a.withCurrent
  | .question => g.question.map a.withCurrent

/-- The finished expression. -/
def finish (a : Assembly) : Except SyntaxError Regex :=
  match a.outer with
  | [] =>
    let r := a.current.inside
    if depthLimit < r.depth then .error .tooDeep else .ok r.regex
  | _ :: _ => .error .unclosedGroup

end Assembly

/-- The names that groups are given. -/
def groupNames (ls : List Lexeme) : List String :=
  ls.filterMap fun
    | .open (.captured name) => name
    | _ => none

/-- The expression that some lexemes describe. No two groups may have one name. -/
def ofLexemes (ls : List Lexeme) : Except SyntaxError Regex :=
  if (groupNames ls).Nodup then ls.foldlM Assembly.feed .start >>= Assembly.finish
  else .error .badGroupName

/-- The expression with a given written form. -/
def parse (source : List Char) : Except SyntaxError Regex := lexemes source >>= ofLexemes

end ShiftReduce.Regex
