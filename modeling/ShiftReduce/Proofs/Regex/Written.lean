import Mathlib.Computability.Language
import ShiftReduce.Regex.Engine

/-!
# The written form of regular expressions

Part of the usual notation with the words that it stands for: characters, classes of ranges, any
character, groups, counted repetition, one behind the other. And what an engine that goes by it is
taken to do: it finds words of an expression at the start of a text, refuses what is no expression,
and compiles what is one unless that gets too big or is nested.
-/
namespace ShiftReduce.Regex

/-! ## Words -/

/-- Words of one character of some kind. -/
def characters (holds : Char → Prop) : Language Char := {w | ∃ c, holds c ∧ w = [c]}

/-- Words of between `min` and `max` parts, each from `L`. -/
def powers (L : Language Char) (min : Nat) (max : Option Nat) : Language Char :=
  {w | ∃ n, min ≤ n ∧ (∀ m ∈ max, n ≤ m) ∧ w ∈ L ^ n}

/-! ## Notation -/

/-- A character is written by itself, or behind a backslash if it has a meaning of its own. -/
inductive Spelling (c : Char) : List Char → Prop
  | bare (plain : ¬ isMeta c) : Spelling c [c]
  | escaped (special : isMeta c) : Spelling c ['\\', c]

/-- A range in a class: a character alone, or the first and the last one. -/
inductive RangeSpelling : Char × Char → List Char → Prop
  | single {c : Char} {text : List Char} (spelled : Spelling c text) : RangeSpelling (c, c) text
  | range {first last : Char} {front behind : List Char} (start : Spelling first front)
      (stop : Spelling last behind) : RangeSpelling (first, last) (front ++ '-' :: behind)

/-- Ranges of a class, one behind the other. -/
inductive RangesSpelling : List (Char × Char) → List Char → Prop
  | nil : RangesSpelling [] []
  | cons {r : Char × Char} {rs : List (Char × Char)} {front behind : List Char}
      (first : RangeSpelling r front) (others : RangesSpelling rs behind) :
      RangesSpelling (r :: rs) (front ++ behind)

/-- The bounds of a repetition, as they are written behind the opening brace. -/
def writtenBounds (min : Nat) (max : Option Nat) : List Char :=
  (toString min).toList ++ ',' ::
    ((match max with
      | some max => (toString max).toList
      | none => []) ++ ['\x7d'])

theorem toList_toString (n : Nat) : (toString n).toList = Nat.toDigits 10 n := by
  rw [Nat.toString_eq_ofList_toDigits, String.toList_ofList]

/-- A number does not begin with the closing brace of bounds. -/
theorem exists_digit (n : Nat) : ∃ d ds, (toString n).toList = d :: ds ∧ d ≠ '\x7d' := by
  rw [toList_toString]
  obtain ⟨d, ds, same⟩ := List.exists_cons_of_ne_nil (Nat.toDigits_ne_nil (n := n) (b := 10))
  have digit : d.isDigit := Nat.isDigit_of_mem_toDigits (by decide) (by decide)
    (same ▸ List.mem_cons_self .. : d ∈ Nat.toDigits 10 n)
  refine ⟨d, ds, same, ?_⟩
  rintro rfl
  exact absurd digit (by decide)

/-- The text is an expression for the words, with groups and repetitions at most `depth` deep. -/
inductive Written : (depth : Nat) → List Char → Language Char → Prop
  | nil {n : Nat} : Written n [] 1
  | char {n : Nat} {c : Char} {text : List Char} (spelled : Spelling c text) : Written n text {[c]}
  | set {n : Nat} {rs : List (Char × Char)} {text : List Char} (spelled : RangesSpelling rs text)
      (inhabited : rs ≠ []) (ordered : ∀ r ∈ rs, r.1 ≤ r.2) :
      Written n ('[' :: (text ++ [']'])) (characters fun c => ∃ r ∈ rs, r.1 ≤ c ∧ c ≤ r.2)
  | any {n : Nat} : Written (n + 1) "(?s:.)".toList (characters fun _ => True)
  | group {n : Nat} {text : List Char} {L : Language Char} (inside : Written n text L) :
      Written (n + 1) ("(?:".toList ++ (text ++ [')'])) L
  | counted {n min : Nat} {max : Option Nat} {text : List Char} {L : Language Char}
      (inside : Written n text L) (ordered : ∀ m ∈ max, min ≤ m) :
      Written (n + 2) ("(?:".toList ++ (text ++ ([')'] ++ '\x7b' :: writtenBounds min max)))
        (powers L min max)
  | append {n : Nat} {front behind : List Char} {L K : Language Char} (first : Written n front L)
      (second : Written n behind K) : Written n (front ++ behind) (L * K)

/-- The text is not the beginning of any expression. -/
inductive Malformed : List Char → Prop
  /-- A closing bracket at the beginning of a class stands for itself, and no other follows. -/
  | unclosed {tail : List Char} (inert : ∀ c ∈ tail, c ∉ "\\^[]&-~".toList) :
      Malformed ('[' :: ']' :: tail)
  | disordered {rs : List (Char × Char)} {text tail : List Char} (spelled : RangesSpelling rs text)
      (reversed : ∃ r ∈ rs, r.2 < r.1) : Malformed ('[' :: (text ++ ']' :: tail))
  | unordered {n min max : Nat} {text tail : List Char} {L : Language Char}
      (inside : Written n text L) (reversed : max < min) :
      Malformed ("(?:".toList ++
        (text ++ ([')'] ++ '\x7b' :: (writtenBounds min (some max) ++ tail))))
  | inside {text : List Char} (fails : Malformed text) : Malformed ("(?:".toList ++ text)

/-! ## How the parts begin -/

variable {c : Char} {r : Char × Char} {rs : List (Char × Char)} {text : List Char}

/-- A character that begins neither a bracket, nor an operation or a negation. -/
def isMemberStart (c : Char) : Bool := c ∉ "^[]&-~".toList

theorem Spelling.head (spelled : Spelling c text) : ∃ h t, text = h :: t ∧ isMemberStart h := by
  cases spelled with
  | bare plain =>
    refine ⟨c, [], rfl, decide_eq_true fun listed => plain ?_⟩
    have special : "^[]&-~".toList.all isMeta := by decide
    exact List.all_eq_true.mp special c listed
  | escaped => exact ⟨'\\', [c], rfl, rfl⟩

theorem RangeSpelling.head (spelled : RangeSpelling r text) :
    ∃ h t, text = h :: t ∧ isMemberStart h := by
  cases spelled with
  | single spelled => exact spelled.head
  | range start =>
    obtain ⟨h, t, rfl, proper⟩ := start.head
    exact ⟨h, _, rfl, proper⟩

/-- What stands behind a range in a class is no hyphen. -/
theorem RangesSpelling.head (spelled : RangesSpelling rs text) (tail : List Char) :
    ∃ d rest, text ++ ']' :: tail = d :: rest ∧ d ≠ '-' ∧ d ≠ '^' ∧ (rs ≠ [] → d ≠ ']') := by
  cases spelled with
  | nil => exact ⟨']', tail, rfl, by decide, by decide, fun some => absurd rfl some⟩
  | @cons r rs front behind first others =>
    obtain ⟨h, t, rfl, proper⟩ := first.head
    have other {d : Char} (special : ¬ isMemberStart d) : h ≠ d := by
      rintro rfl
      exact special proper
    exact ⟨h, t ++ behind ++ ']' :: tail, rfl, other (by decide), other (by decide),
      fun _ => other (by decide)⟩

/-! ## Engines -/

/-- At the beginning of every text a word is found if there is one, and nothing else. -/
def Matcher.Recognises (m : Matcher) (L : Language Char) : Prop :=
  ∀ text, (∀ n, m.find text = some n → text.take n ∈ L) ∧
    (m.find text = none → ∀ n, text.take n ∉ L)

namespace Engine

/-- What the expression is compiled to, if it is one, does not get too big. -/
def Fits (engine : Engine) (source : List Char) : Prop :=
  ∀ limit, engine.compile source ≠ .error (.tooBig limit)

/-- What is known of an engine: how it takes expressions behind the sign for the start of a text. -/
structure Documented (engine : Engine) : Prop where
  recognises {n : Nat} {text : List Char} {L : Language Char} {m : Matcher}
    (written : Written n text L) (compiled : engine.compile ("\\A".toList ++ text) = .ok m) : m.Recognises L
  refuses {text : List Char} (malformed : Malformed text) :
    ∃ message, engine.compile ("\\A".toList ++ text) = .error (.malformed message)
  /-- There is a limit to how deeply an expression may be nested, but one group is not too deep. -/
  compiles {text : List Char} {L : Language Char} (written : Written 1 text L)
    (fits : engine.Fits ("\\A".toList ++ text)) :
    ∃ m, engine.compile ("\\A".toList ++ text) = .ok m

end Engine

end ShiftReduce.Regex
