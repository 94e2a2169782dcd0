import ShiftReduce.Text.Span

/-!
# Line tables

The offsets at which the lines of a text begin, collected in one scan of its bytes, for turning
offsets into positions. A line feed, a carriage return, and the two in this order end a line.
-/
namespace ShiftReduce.Text

/-- The UTF-8 form of a text. -/
def bytes (text : List Char) : List UInt8 := text.flatMap String.utf8EncodeChar

/-- The offsets behind the line breaks of some bytes that start at an offset. -/
def startsAfter (place : Nat) : List UInt8 → List Nat
  | [] => []
  -- a carriage return and a line feed are one line break
  | 13 :: 10 :: rest => offset (place + 2) :: startsAfter (place + 2) rest
  | b :: rest =>
    if b = 10 ∨ b = 13 then offset (place + 1) :: startsAfter (place + 1) rest
    else startsAfter (place + 1) rest

/-- The last of `size` numbers from `base` on that is at most `key`, or the one at `base`. The
numbers are in order, so half of them can be left out each time. -/
def narrow (numbers : Array Nat) (key base size : Nat) : Nat :=
  if size ≤ 1 then base
  else
    let half := size / 2
    let inSecond := numbers[base + half]?.any (· ≤ key)
    narrow numbers key (if inSecond then base + half else base) (size - half)
termination_by size

/-- Look a number up among numbers in order: where it stands, or else where it would have to be put
in as an error. -/
def search (numbers : Array Nat) (key : Nat) : Except Nat Nat :=
  let base := narrow numbers key 0 numbers.size
  match numbers[base]? with
  | none => .error base
  | some n => if n = key then .ok base else .error (if n < key then base + 1 else base)

/-- The text behind the first `bytes` bytes, unless these end inside a character. -/
def behind? : Nat → List Char → Option (List Char)
  | 0, text => some text
  | _ + 1, [] => none
  | bytes + 1, c :: rest =>
    if c.utf8Size ≤ bytes + 1 then behind? (bytes + 1 - c.utf8Size) rest else none

/-- The number of characters in the first `bytes` bytes, unless these end inside a character. -/
def charsIn : Nat → List Char → Option Nat
  | 0, _ => some 0
  | _ + 1, [] => none
  | bytes + 1, c :: rest =>
    if c.utf8Size ≤ bytes + 1 then (charsIn (bytes + 1 - c.utf8Size) rest).map (· + 1) else none

/-- A text and the offsets at which its lines begin, in order. -/
structure LineTable where
  starts : Array Nat
  text : List Char
deriving DecidableEq, Repr

namespace LineTable

def ofChars (text : List Char) : LineTable := ⟨(0 :: startsAfter 0 (bytes text)).toArray, text⟩

def ofString (text : String) : LineTable := ofChars text.toList

/-- Number of lines. -/
def size (table : LineTable) : Nat := table.starts.size

/-- Number of bytes. -/
def length (table : LineTable) : Nat := byteLength table.text

/-- The offset of a line, counted from zero. -/
def startOf? (table : LineTable) (line : Nat) : Option Nat := table.starts[line]?

/-- The line of an offset. If none begins there, it is the one before the next line. -/
def lineAt (table : LineTable) (place : Nat) : Nat :=
  match search table.starts place with
  | .ok line => line
  | .error next => next - 1

/-- The position of an offset. Offsets beyond the end stand for the end. Inside a character the
column is the distance in bytes. -/
def position (table : LineTable) (place : Nat) : Position :=
  let place := min place (offset table.length)
  let line := table.lineAt place
  let start := (table.startOf? line).getD 0
  let distance := place - start
  ⟨line, ((behind? start table.text).bind (charsIn distance)).getD distance⟩

end LineTable

/-- The position of an offset in a text. -/
def positionIn (text : List Char) (place : Nat) : Position :=
  (LineTable.ofChars text).position place

end ShiftReduce.Text
