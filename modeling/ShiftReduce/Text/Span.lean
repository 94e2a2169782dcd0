/-!
# Offsets, spans and positions

Places in a text are byte offsets into its UTF-8 form. Offsets have 32 bits: larger ones are held
at the greatest.
-/
namespace ShiftReduce.Text

/-- The greatest offset that can be represented. -/
def maxOffset : Nat := UInt32.size - 1

/-- The offset nearest to `n`. -/
def offset (n : Nat) : Nat := min n maxOffset

theorem offset_of_le {n : Nat} (small : n ≤ maxOffset) : offset n = n := Nat.min_eq_left small

/-- Number of bytes that some characters take. -/
def byteLength (cs : List Char) : Nat := cs.foldr (fun c n => c.utf8Size + n) 0

@[simp] theorem byteLength_nil : byteLength [] = 0 := rfl

@[simp] theorem byteLength_cons (c : Char) (cs : List Char) :
    byteLength (c :: cs) = c.utf8Size + byteLength cs := rfl

@[simp] theorem byteLength_append (cs ds : List Char) :
    byteLength (cs ++ ds) = byteLength cs + byteLength ds := by
  induction cs with
  | nil => simp
  | cons c cs ih => simp [ih, Nat.add_assoc]

/-- The bytes from offset `start` up to, and without, offset `stop`. -/
structure Span where
  start : Nat
  stop : Nat
deriving DecidableEq, Repr, Inhabited

namespace Span

/-- The span between two positions in a text. -/
def between (start stop : Nat) : Span := ⟨offset start, offset stop⟩

/-- The empty span at an offset. -/
def emptyAt (start : Nat) : Span := ⟨start, start⟩

/-- The span of `length` bytes from `start` on. -/
def ofLength (start length : Nat) : Span := ⟨start, start + length⟩

def length (s : Span) : Nat := s.stop - s.start

def isEmpty (s : Span) : Bool := s.start = s.stop

def render (s : Span) : String := toString s.start ++ ".." ++ toString s.stop

end Span

/-- A line and a column, both counted from zero, the column in characters. -/
structure Position where
  line : Nat
  column : Nat
deriving DecidableEq, Repr, Inhabited

/-- The position as editors show it, counted from one. -/
def Position.render (p : Position) : String :=
  toString (p.line + 1) ++ ":" ++ toString (p.column + 1)

end ShiftReduce.Text
