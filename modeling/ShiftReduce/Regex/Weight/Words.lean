import ShiftReduce.Regex.Weight.Basic

/-!
# The weight of a choice between words

An automaton for a choice between literals reads along a tree in which words share their beginnings.
A word that is preferred to a longer one cuts the tree below it in two, so that the preference is
kept.
-/
namespace ShiftReduce.Regex

/-- The bytes of some text in the order in which they are read. -/
def bytes (d : Direction) (text : List Char) : List UInt8 :=
  let inOrder := text.flatMap String.utf8EncodeChar
  match d with
  | .forwards => inOrder
  | .backwards => inOrder.reverse

/-- A tree of words is kept as the list of its words, most preferred first. The words between those
that end at its root; of several that end there first, all count as one. -/
def segments (words : List (List UInt8)) : List (List (List UInt8)) :=
  let split (words : List (List UInt8)) : List (List (List UInt8)) :=
    words.foldr (fun word found =>
      match word, found with
      | [], found => [] :: found
      | word, segment :: found => (word :: segment) :: found
      | word, [] => [[word]]) [[]]
  match words with
  | [] :: rest => [] :: split (rest.dropWhile (·.isEmpty))
  | words => split words

/-- The bytes that words without empty ones begin with, and what is behind each of them. -/
def subtrees (words : List (List UInt8)) : List (List (List UInt8)) :=
  (words.filterMap (·.head?)).eraseDups.map fun byte => words.filterMap fun
    | [] => none
    | b :: rest => if b = byte then some rest else none

/-- The weight of the root of a tree: a fork between the segments, and a reader for each of them. -/
def rootWeight (words : List (List UInt8)) : Nat :=
  let parts := segments words
  let readers := (parts.filter (!·.isEmpty)).map fun part =>
    match (subtrees part).length with
    | 1 => stateWeight
    | ranges => readerWeight ranges
  readers.foldr (· + ·) (forkWeight (readers.length + (parts.length - 1)))

/-- The weight of some trees of words of at most `depth` bytes, added to `n`. All words end in one
common state, which is not counted here. -/
def treesWeight : (depth n : Nat) → List (List (List UInt8)) → Nat
  | 0, n, _ => n
  | depth + 1, n, trees =>
    let trees := trees.filter fun words => words.any (!·.isEmpty)
    treesWeight depth (trees.foldr (fun words n => rootWeight words + n) n)
      (trees.flatMap fun words => (segments words).flatMap subtrees)

/-- The weight of a choice between literals, which share their beginnings. -/
def wordsWeight (d : Direction) (texts : List (List Char)) : Nat :=
  let words := texts.map (bytes d)
  treesWeight ((words.map List.length).foldl max 0) stateWeight [words]

end ShiftReduce.Regex
