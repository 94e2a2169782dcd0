import ShiftReduce.Regex.Shape

/-!
# Programs of regular expressions

An expression is laid out as numbered instructions, the way it is matched: read a character, check a
condition, or fork, the preferred way first. An instruction names the places to go on at. The place
behind the last instruction is reached when all of the expression has been matched.
-/
namespace ShiftReduce.Regex

inductive Instruction where
  | read (set : Text.CharSet) (next : Nat)
  | check (a : Assertion) (next : Nat)
  | fork (preferred other : Nat)
  | jump (next : Nat)
deriving DecidableEq, Repr

mutual

/-- Number of instructions of an expression, at least one. -/
def size : Regex → Nat
  | literal text => max 1 text.length
  | one _ => 1
  | holds _ => 1
  | captured _ r => r.size
  | repeated r min none _ =>
    if min = 0 then if r.alwaysReads then r.size + 1 else r.size + 2 else min * r.size + 1
  | repeated r min (some max) _ => Nat.max 1 (min * r.size + (max - min) * (r.size + 1))
  | sequence rs => Nat.max 1 (totalSize 0 rs)
  | choice rs => Nat.max 1 (totalSize 0 rs + (rs.length - 1))

/-- The sizes of some expressions, added to `n`. -/
def totalSize (n : Nat) : List Regex → Nat
  | [] => n
  | r :: rest => totalSize (n + r.size) rest

end

/-- The instructions so far. More are appended, and begin at their number. -/
abbrev Code := Array Instruction

namespace Code

/-- Two ways to go on, the first of which is preferred unless `isLazy`. -/
def fork (isLazy : Bool) (on off : Nat) (code : Code) : Code :=
  code.push (if isLazy then .fork off on else .fork on off)

/-- Read some text and go on at `exit`. -/
def spell (exit : Nat) : List Char → Code → Code
  | [], code => code.push (.jump exit)
  | [c], code => code.push (.read (.single c) exit)
  | c :: rest, code => spell exit rest (code.push (.read (.single c) (code.size + 1)))

/-- Instructions that go on at a place, to be appended. -/
abbrev Layout := Nat → Code → Code

/-- A body of `size` instructions `n` times. The last goes on behind it. -/
def copies (body : Layout) (size : Nat) : Nat → Code → Code
  | 0, code => code
  | n + 1, code => copies body size n (body (code.size + size) code)

/-- A body up to `n` times. Each time may be the last. -/
def optional (body : Layout) (size : Nat) (isLazy : Bool) (exit : Nat) : Nat → Code → Code
  | 0, code => code
  | n + 1, code =>
    let next := if n = 0 then exit else code.size + 1 + size
    optional body size isLazy exit n (body next (code.fork isLazy (code.size + 1) exit))

/-- A body once or more often. -/
def loop (body : Layout) (size : Nat) (isLazy : Bool) (exit : Nat) (code : Code) : Code :=
  (body (code.size + size) code).fork isLazy code.size exit

end Code

mutual

/-- Append the instructions of an expression. They go on at `exit`. -/
def layOut : Regex → Nat → Code → Code
  | literal text, exit, code => code.spell exit text
  | one s, exit, code => code.push (.read s exit)
  | holds a, exit, code => code.push (.check a exit)
  | captured _ r, exit, code => r.layOut exit code
  | repeated r 0 none isLazy, exit, code =>
    -- a body that may read nothing is entered by a fork of its own, since going through it without
    -- reading leads to the fork behind it, which must not have been visited then
    if r.alwaysReads then r.layOut code.size (code.fork isLazy (code.size + 1) exit)
    else Code.loop r.layOut r.size isLazy exit (code.fork isLazy (code.size + 1) exit)
  | repeated r (min + 1) none isLazy, exit, code =>
    Code.loop r.layOut r.size isLazy exit (Code.copies r.layOut r.size min code)
  | repeated r min (some max) isLazy, exit, code =>
    match min, max - min with
    | 0, 0 => code.push (.jump exit)
    | min + 1, 0 => r.layOut exit (Code.copies r.layOut r.size min code)
    | min, more =>
      Code.optional r.layOut r.size isLazy exit more (Code.copies r.layOut r.size min code)
  | sequence rs, exit, code => layOutInOrder rs exit code
  | choice rs, exit, code => layOutBranches rs exit code

def layOutInOrder : List Regex → Nat → Code → Code
  | [], exit, code => code.push (.jump exit)
  | [r], exit, code => r.layOut exit code
  | r :: rest, exit, code => layOutInOrder rest exit (r.layOut (code.size + r.size) code)

def layOutBranches : List Regex → Nat → Code → Code
  | [], exit, code => code.push (.read .empty exit)
  | [r], exit, code => r.layOut exit code
  | r :: rest, exit, code =>
    let code := code.fork false (code.size + 1) (code.size + 1 + r.size)
    layOutBranches rest exit (r.layOut exit code)

end

/-- An expression laid out to be matched. -/
structure Program where
  instructions : Code
  /-- Whether every match begins at the start of the text. -/
  isAnchored : Bool
deriving DecidableEq, Repr

namespace Program

def ofRegex (r : Regex) : Program := ⟨r.layOut r.size #[], r.beginsWith .textStart⟩

def size (p : Program) : Nat := p.instructions.size

end Program

end ShiftReduce.Regex
